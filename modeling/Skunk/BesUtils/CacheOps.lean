import Skunk.BesUtils.CacheItems

/-!
# The operations

What each operation of a client leaves, put together from the pieces: the recorded size is right again,
and nothing is left of the descriptors that the operation opened for itself. Then the lock around them.
-/

namespace Skunk.BesUtils

open Effect Posix

namespace Usage

variable {u : Usage} {may : CacheOp → Prop} {i f fd : Nat} {o : OpenFile} {s s' : View}

/-! ## The lock -/

/-- The client is in no section. -/
def Out (i : Nat) (s : View) : Prop := ∀ f, s.2.holder ≠ some (i, f)

theorem Out.of_rely (h : Out i s) (hrely : u.Rely i s s') : Out i s' :=
  fun f hf => h f ((hrely.inside f).mp hf)

/-- The lock of the cache changes. -/
theorem frame_setLock (hopened : s.1.opened f = some o) (l : Option FlockMode) (g : Ghost)
    (hpending : g.pending = s.2.pending) :
    Frame u i f none s (s.1.setOpen f (some { o with lock := l }), g) where
  own := fun fd x _ hne hx => hx.setOpen_of_ne hne g
  info := by
    rintro ⟨x, hx, hinfo, hwho⟩
    rw [hopened] at hx
    obtain rfl := Option.some.inj hx
    exact ⟨_, Kernel.setOpen_opened_self, hinfo, hwho⟩
  file := fun _ hino => hino
  claims := by
    intro c _ _
    show c ∈ g.pending ↔ c ∈ s.2.pending
    rw [hpending]

/-- A client that is granted the lock of the cache finds nobody in the section. -/
theorem holder_of_granted (hinv : u.Inv s) (hout : Out i s) (hopened : s.1.opened f = some o)
    (hinfo : u.IsInfo s.1 o.ino) (hwho : u.shared = some f ∨ u.shared = none ∧ o.opener = i)
    (hgrants : s.1.grants f o.ino .exclusive = true)
    (hfree : u.shared = some f → o.lock = none) : s.2.holder = none := by
  rw [Option.eq_none_iff_forall_ne_some]
  rintro ⟨j, g⟩ hj
  obtain ⟨x, hx, hinfo', hlock, hwho'⟩ := hinv.holds j g hj
  by_cases hg : g = f
  · subst hg
    rw [hopened] at hx
    obtain rfl := Option.some.inj hx
    rcases hwho' with hsh | ⟨-, hj'⟩
    · rw [hfree hsh] at hlock
      cases hlock
    · rcases hwho with hsh | ⟨-, hi⟩
      · rw [hfree hsh] at hlock
        cases hlock
      · -- the descriptor is the client's own, and the client is in no section
        rw [← hj', hi] at hj
        exact hout g hj
  · have hsame : x.ino = o.ino := hinv.wf.ino_eq hinfo' hinfo
    rcases (Kernel.grants_iff hinv.wf).mp hgrants g x hx hg hsame with hnone | ⟨-, hmode⟩
    · rw [hnone] at hlock
      cases hlock
    · cases hmode

/-- What the client does with the cache locked. -/
theorem withCacheLock_keeps {α : Type} {fd : Option Nat} {fail : α} {body : Nat → Sys α}
    {Q : α → View → Prop} (hout : Out i s) (hfd : ∀ f, fd = some f → InfoFd u i f s)
    (hfail : fd = none → ∀ s', u.Rely i s s' → u.Inv s' → Q fail s')
    (hbody : ∀ f s1, fd = some f → u.Inv s1 → Frame u i f none s s1 → InSection u i f 0 0 s1 →
      Keeps u may i (body f) (fun a s2 => InSection u i f 0 0 s2 ∧
        ∀ s3, Frame u i f none s2 s3 → Out i s3 → u.Inv s3 → Q a s3) s1) :
    Keeps u may i (withCacheLock fd fail body) Q s := by
  cases fd with
  | none => exact keeps_pure (hfail rfl)
  | some f =>
      apply keeps_call
      intro s1 hrely hinv1
      have hout1 := hout.of_rely hrely
      obtain ⟨o, ho, hinfo, hwho⟩ := (hfd f rfl).of_rely hrely
      have hshared : u.shared = none ∨ u.shared = some f := by
        rcases hwho with hsh | ⟨hsh, -⟩
        · exact .inr hsh
        · exact .inl hsh
      refine ⟨⟨fun _ => ⟨hout1, hshared⟩, fun hnot => absurd ⟨o, ho, hinfo⟩ hnot⟩, fun r w hexec htidy => ?_⟩
      rcases Kernel.exec_flock ho hexec with ⟨rfl, hgrants, rfl⟩ | ⟨-, -, hnb⟩
      · have hnone := holder_of_granted hinv1 hout1 ho hinfo hwho hgrants fun hsh => htidy hsh o ho
        have hmove := Move.lockCache hinv1 hnone ho hinfo hwho hgrants
        have hsec : InSection u i f 0 0 (s1.1.setOpen f (some { o with lock := some .exclusive }),
            { s1.2 with holder := some (i, f) }) := by
          refine ⟨rfl, fun hacc => ?_⟩
          have hd : Differs s1.1 (s1.1.setOpen f (some { o with lock := some .exclusive })) f
              (some { o with lock := some .exclusive }) := ⟨rfl, rfl, rfl, rfl⟩
          have hrecorded := hd.recorded (u := u) (s := s1) { s1.2 with holder := some (i, f) }
          have hcounted := hd.counted (u := u) (s := s1)
          have hbalance := (hinv1.books hacc).balance hnone
          show u.recorded _ + 0 = u.counted (s1.1.setOpen f _, s1.2) + 0
          rw [hrecorded, hcounted, hbalance]
        refine ⟨_, hmove, ?_⟩
        have hframe := (Frame.of_rely hrely).trans
          (frame_setLock (u := u) (i := i) ho (some .exclusive) { s1.2 with holder := some (i, f) } rfl)
        refine (hbody f _ rfl hmove.inv hframe hsec).andThen hmove.inv ?_
        rintro a s2 hinv2 ⟨hsec2, hpost⟩
        -- the destructor of the `CacheLock`
        apply keeps_call
        intro s3 hrely3 hinv3
        have hk : Kept u i f s2 s3 := .of_rely hsec2.holder hrely3
        obtain ⟨x, hx, -⟩ := hinv3.holds i f hk.holder
        refine ⟨trivial, fun r w hexec3 _ => ?_⟩
        rw [Kernel.exec_unlock hx] at hexec3
        obtain ⟨rfl, rfl⟩ := Prod.mk.inj (Option.some.inj hexec3)
        have hbalance : u.accounts = true → u.recorded s3 = u.counted s3 :=
          fun hacc => (hsec2.kept hk).balance hacc
        refine ⟨_, Move.unlockCache hinv3 hk.holder hx hbalance, ?_⟩
        apply keeps_pure
        intro s4 hrely4 hinv4
        have hunlock := frame_setLock (u := u) (i := i) hx none { s3.2 with holder := none } rfl
        refine hpost s4 (((hk.frame hinv3).trans hunlock).trans (.of_rely hrely4)) ?_ hinv4
        have hout4 : Out i (s3.1.setOpen f (some { x with lock := none }), { s3.2 with holder := none }) :=
          fun _ => nofun
        exact hout4.of_rely hrely4
      · cases hnb

/-! ## Putting items -/

section Put

variable {bytes : List UInt8} {fc : FileCache} {key : Text}

theorem Updated.frame (h : Updated u i f s.2.pending s s') : Frame u i f none s s' where
  own := fun g x _ hg hx => h.own g x hg hx
  info := fun _ => h.info
  file := h.file
  claims := by
    intro c _ _
    rw [h.pending]

/-- The size of the new file is recorded. -/
theorem addFileSize_keeps (hinv : u.Inv s') (h : Making u i f fd o bytes s s') :
    Keeps u may i (FileCache.addFileSize f fd)
      (fun _ s1 => Closing u i f fd s s1 ∧ InSection u i f 0 0 s1) s' := by
  refine (getCacheInfoSize_keeps h.filling.section_.holder).andThen hinv ?_
  rintro recorded s1 hinv1 ⟨hk1, hrecorded⟩
  have hmaking1 := h.kept hk1 hinv1
  have hfilling1 := hmaking1.filling
  have hsame : u.accounts = true → ∀ s2, Kept u i f s1 s2 → s2.1.data o.ino = s1.1.data o.ino := by
    intro hacc s2 hk
    rw [((hfilling1.kept hk).content hacc).1, (hfilling1.content hacc).1]
  refine (getFileSize_keeps hk1.holder hfilling1.own hfilling1.ne hsame hinv1).andThen hinv1 ?_
  rintro size s2 hinv2 ⟨hk2, hsize⟩
  have hmaking2 := hmaking1.kept hk2 hinv2
  have hfilling2 := hmaking2.filling
  have hupdate : Keeps u may i (updateCacheInfoSize f ((recorded + size) % 2 ^ 64))
      (fun _ s3 => Updated u i f s2.2.pending s2 s3) s2 := by
    refine updateCacheInfoSize_keeps hk2.holder s2.2.pending (List.Sublist.refl _)
      (fun _ hc _ => hc) fun hacc => ?_
    have hbalance := hfilling2.section_.balance hacc
    have hsmall : u.counted s2 < 2 ^ 64 := Nat.lt_of_le_of_lt (counted_le s2) (hinv2.books hacc).small
    have hsum : recorded + size = u.counted s2 := by
      rw [hrecorded hacc, hsize hacc, (hfilling1.content hacc).1]
      rw [← hk2.calm.recorded hacc]
      exact hbalance
    rw [hsum]
    refine ⟨Nat.mod_eq_of_lt hsmall, Nat.mod_lt _ (by decide)⟩
  refine hupdate.mono ?_
  intro _ s3 hinv3 hupdated
  have hframe := hupdated.frame
  refine ⟨⟨hupdated.section_.holder, ⟨o, hupdated.own fd o hfilling2.ne hfilling2.own⟩, hfilling2.ne, ?_,
    hmaking2.frame.trans hframe.weaken⟩, hupdated.section_⟩
  rw [hupdated.pending]
  exact hfilling2.unclaimed hinv2

/-- An operation that stops before it has recorded a size. -/
theorem Making.stop {s1 : View} (h : Making u i f fd o bytes s s') (hrely : u.Rely i s' s1)
    (hinv1 : u.Inv s1) (hempty : u.accounts = true → bytes = []) :
    Closing u i f fd s s1 ∧ InSection u i f 0 0 s1 := by
  have hmaking := h.kept (.of_rely h.filling.section_.holder hrely) hinv1
  refine ⟨hmaking.closing hinv1, hmaking.filling.section_.holder, fun hacc => ?_⟩
  have hbalance := hmaking.filling.section_.balance hacc
  rw [hempty hacc] at hbalance
  exact hbalance

/-- What an operation leaves in its section. -/
structure Done (u : Usage) (i f : Nat) (s s' : View) : Prop where
  section_ : InSection u i f 0 0 s'
  frame : Frame u i f none s s'

theorem Done.kept {s'' : View} (h : Done u i f s s') (hk : Kept u i f s' s'') (hinv : u.Inv s'') :
    Done u i f s s'' :=
  ⟨h.section_.kept hk, h.frame.trans (hk.frame hinv)⟩

/-- What is done with a new item until it is closed. -/
theorem newItem_keeps {body : Sys Bool} (hinv : u.Inv s) (hinv' : u.Inv s') (hfresh : Fresh u i fd s)
    (hbody : Keeps u may i body (fun _ s1 => Closing u i f fd s s1 ∧ InSection u i f 0 0 s1) s') :
    Keeps u may i (withItem fd body) (fun _ s1 => Done u i f s s1) s' := by
  have hwith := withItem_keeps (P := fun _ s1 => InSection u i f 0 0 s1) hinv hfresh hinv'
    (fun _ s1 s2 hholder hsteady hsec => hsec.steady hholder hsteady) hbody
  exact hwith.mono fun _ s1 _ ⟨_, hframe, hsec⟩ => ⟨hsec, hframe⟩

/-- What an operation leaves to a client whose object has the descriptor `info`, but for `mod`. -/
structure Leaves (u : Usage) (i : Nat) (info mod : Option Nat) (s s' : View) : Prop where
  out : Out i s'
  own : ∀ fd o, mod ≠ some fd → info ≠ some fd → Own u i fd o s → Own u i fd o s'
  info : ∀ f, info = some f → InfoFd u i f s → InfoFd u i f s'
  claims : ∀ c : Pending, c.client = i → mod ≠ some c.fd → (c ∈ s'.2.pending ↔ c ∈ s.2.pending)

theorem Leaves.of_frame {mod : Option Nat} (hout : Out i s') (h : Frame u i f mod s s') :
    Leaves u i (some f) mod s s' where
  out := hout
  own := fun fd o hmod hfd ho => h.own fd o hmod (fun heq => hfd (congrArg some heq.symm)) ho
  info := by
    rintro _ ⟨⟩ hinfo
    exact h.info hinfo
  claims := h.claims

theorem Leaves.of_rely {info : Option Nat} (hout : Out i s) (h : u.Rely i s s') (mod : Option Nat) :
    Leaves u i info mod s s' where
  out := hout.of_rely h
  own := fun _ _ _ _ ho => ho.of_rely h
  info := fun _ _ hinfo => hinfo.of_rely h
  claims := fun c hc _ => h.claims c hc

theorem Leaves.rely {info mod : Option Nat} {s'' : View} (h : Leaves u i info mod s s')
    (hrely : u.Rely i s' s'') : Leaves u i info mod s s'' where
  out := h.out.of_rely hrely
  own := fun fd o hmod hfd ho => (h.own fd o hmod hfd ho).of_rely hrely
  info := fun f hf hinfo => (h.info f hf hinfo).of_rely hrely
  claims := fun c hc hmod => (hrely.claims c hc).trans (h.claims c hc hmod)

/-- A client with this object may begin an operation. -/
structure Ready (u : Usage) (i : Nat) (fc : FileCache) (s : View) : Prop where
  out : Out i s
  info : ∀ f, fc.cacheInfoFd = some f → InfoFd u i f s
  dir : ∀ f, fc.cacheInfoFd = some f → fc.cacheDir = u.dir

/-- An operation that leaves nothing behind. -/
theorem locked_keeps {α : Type} {fail : α} {body : Nat → Sys α} (h : Ready u i fc s)
    (hbody : ∀ f s1, fc.cacheDir = u.dir → u.Inv s1 → InSection u i f 0 0 s1 →
      Keeps u may i (body f) (fun _ s2 => Done u i f s1 s2) s1) :
    Keeps u may i (withCacheLock fc.cacheInfoFd fail body)
      (fun _ s' => Leaves u i fc.cacheInfoFd none s s') s := by
  refine withCacheLock_keeps h.out h.info ?_ ?_
  · exact fun _ s1 hrely _ => .of_rely h.out hrely none
  · intro f s1 hf hinv1 hframe hsec
    refine (hbody f s1 (h.dir f hf) hinv1 hsec).mono fun _ s2 _ hdone => ⟨hdone.section_, ?_⟩
    rw [hf]
    exact fun s3 hframe3 hout3 _ => .of_frame hout3 ((hframe.trans hdone.frame).trans hframe3)

theorem putData_keeps (h : Ready u i fc s) (hkey : Proper u key) (data : List UInt8) :
    Keeps u may i (fc.putData key data) (fun _ s' => Leaves u i fc.cacheInfoFd none s s') s := by
  refine locked_keeps h fun f s1 hdir hinv1 hsec => ?_
  refine (createKey_keeps hsec hdir hkey).andThen hinv1 ?_
  intro created s2 hinv2 hcreated
  cases created with
  | none =>
      apply keeps_pure
      intro s3 hrely hinv3
      exact Done.kept ⟨hcreated.1, hcreated.2⟩ (.of_rely hcreated.1.holder hrely) hinv3
  | some fd =>
      obtain ⟨o, hmaking, hlock⟩ := hcreated
      refine newItem_keeps hinv1 hinv2 hmaking.fresh ?_
      refine (lockNew_keeps hinv2 hmaking hlock).andThen hinv2 ?_
      rintro locked s3 hinv3 ⟨rfl, hmaking3⟩
      refine (writeNew_keeps hmaking3 data).andThen hinv3 ?_
      rintro written s4 hinv4 ⟨hwritten, o', hmaking4⟩
      split
      · exact addFileSize_keeps hinv4 hmaking4
      next hne =>
        apply keeps_pure
        intro s5 hrely hinv5
        exact hmaking4.stop hrely hinv5 fun hacc => absurd (hwritten hacc) hne

theorem put_keeps (h : Ready u i fc s) (hkey : Proper u key) (fileName : Text) :
    Keeps u may i (fc.put key fileName) (fun _ s' => Leaves u i fc.cacheInfoFd none s s') s := by
  refine locked_keeps h fun f s1 hdir hinv1 hsec => ?_
  refine (createKey_keeps hsec hdir hkey).andThen hinv1 ?_
  intro created s2 hinv2 hcreated
  cases created with
  | none =>
      apply keeps_pure
      intro s3 hrely hinv3
      exact Done.kept ⟨hcreated.1, hcreated.2⟩ (.of_rely hcreated.1.holder hrely) hinv3
  | some fd =>
      obtain ⟨o, hmaking, hlock⟩ := hcreated
      refine newItem_keeps hinv1 hinv2 hmaking.fresh ?_
      refine (lockNew_keeps hinv2 hmaking hlock).andThen hinv2 ?_
      rintro locked s3 hinv3 ⟨rfl, hmaking3⟩
      refine (look_keeps (u := u) (c := .source fileName) hmaking3.filling.section_.holder
        (fun K => K.sources fileName) (fun _ => rfl) (fun _ _ => trivial) (fun _ _ => rfl)).andThen
        hinv3 ?_
      rintro source s4 hinv4 ⟨s5, -, hk, -, hk'⟩
      have hmaking4 := hmaking3.kept (hk.trans hk') hinv4
      cases source with
      | none =>
          apply keeps_pure
          intro s6 hrely hinv6
          exact hmaking4.stop hrely hinv6 fun _ => rfl
      | some bytes =>
          refine (copyPieces_keeps hinv4 hmaking4 _).andThen hinv4 ?_
          rintro copied s6 hinv6 ⟨hcopied, o', hmaking6⟩
          split
          · exact addFileSize_keeps hinv6 hmaking6
          next hne =>
            apply keeps_pure
            intro s7 hrely hinv7
            exact hmaking6.stop hrely hinv7 fun hacc => absurd (hcopied hacc) hne

/-- The client has a new item that it may write to. -/
structure Held (u : Usage) (i f fd : Nat) (o : OpenFile) (s s' : View) : Prop where
  own : Own u i fd o s'
  ne : fd ≠ f
  excl : o.lock = some .exclusive
  claim : u.accounts = true → ⟨i, fd, o.ino⟩ ∈ s'.2.pending
  fresh : Fresh u i fd s
  frame : Frame u i f (some fd) s s'

theorem Held.framed {s'' : View} (h : Held u i f fd o s s') (hframe : Frame u i f none s' s'') :
    Held u i f fd o s s'' where
  own := hframe.own fd o nofun h.ne h.own
  ne := h.ne
  excl := h.excl
  claim := fun hacc => (hframe.claims ⟨i, fd, o.ino⟩ rfl nofun).mpr (h.claim hacc)
  fresh := h.fresh
  frame := h.frame.trans hframe.weaken

/-- An empty file counts for nothing, pending or not. -/
theorem counted_claim {c : Pending} (hempty : s.1.data c.ino = []) :
    u.counted (s.1, { s.2 with pending := c :: s.2.pending }) = u.counted s := by
  rw [counted, counted]
  congr 1
  apply List.map_congr_left
  intro e _
  rw [weight, weight]
  by_cases hino : c.ino = e.2
  · rw [← hino, hempty]
    simp
  · simp [hino]

/-- The new item becomes pending. -/
theorem claim_keeps (h : Making u i f fd o [] s s') (hlock : o.lock = some .exclusive)
    (hlends : u.accounts = true → u.lends = true) :
    Keeps u may i (call (.futimes fd))
      (fun _ s1 => InSection u i f 0 0 s1 ∧ Held u i f fd o s s1) s' := by
  refine keeps_section h.filling.section_.holder ?_ ?_
  · rintro r s1 s2 hinv2 hk ⟨hsec, hheld⟩
    exact ⟨hsec.kept hk, hheld.framed (hk.frame hinv2)⟩
  · intro s1 hinv1 hk
    have hmaking := h.kept hk hinv1
    have hfilling := hmaking.filling
    refine ⟨trivial, fun r w hexec _ => ?_⟩
    rw [Kernel.exec, hfilling.own.opened] at hexec
    obtain ⟨-, rfl⟩ := Prod.mk.inj (Option.some.inj hexec)
    cases hacc : u.accounts with
    | false =>
        -- without accounts nothing is claimed, and only the time is set
        have hq := quiet_atime hinv1 (Function.update s1.1.atime o.ino s1.1.now)
        have hframe : Frame u i f none s1 ({ s1.1 with atime := _ }, s1.2) := .of_rely (hq.rely hinv1 i)
        refine ⟨s1.2, ⟨hq.inv hinv1, rfl, fun j _ => hq.rely hinv1 j⟩, hk.holder,
          .unaccounted hk.holder hacc, ?_⟩
        refine Held.framed ⟨hfilling.own, hfilling.ne, hlock, ?_, hmaking.fresh, hmaking.frame⟩ hframe
        exact fun htrue => Bool.noConfusion (hacc.symm.trans htrue)
    | true =>
        obtain ⟨n, hfile, hn⟩ := hfilling.item hacc
        obtain ⟨hinv2, hothers⟩ := Move.claim hinv1 hacc (hlends hacc) hk.holder hfilling.own hlock hfile hn
          (hfilling.free hacc)
        have hq := quiet_atime hinv2 (Function.update s1.1.atime o.ino s1.1.now)
        have hframe : Frame u i f none (s1.1, { s1.2 with pending := ⟨i, fd, o.ino⟩ :: s1.2.pending })
          ({ s1.1 with atime := _ }, _) := .of_rely (hq.rely hinv2 i)
        have hsec : InSection u i f 0 0
            (s1.1, { s1.2 with pending := ⟨i, fd, o.ino⟩ :: s1.2.pending }) := by
          refine ⟨hk.holder, fun _ => ?_⟩
          -- what is pending no longer counts, but the file is empty
          have hempty : s1.1.data o.ino = [] := (hfilling.content hacc).1
          rw [counted_claim (c := ⟨i, fd, o.ino⟩) hempty]
          exact hfilling.section_.balance hacc
        have hclaims : Frame u i f (some fd) s1
            (s1.1, { s1.2 with pending := ⟨i, fd, o.ino⟩ :: s1.2.pending }) := by
          refine ⟨fun _ _ _ _ hx => ⟨hx.opened, hx.opener, hx.unshared⟩, fun hx => hx, fun _ hx => hx, ?_⟩
          intro c _ hmod
          show c ∈ ⟨i, fd, o.ino⟩ :: s1.2.pending ↔ c ∈ s1.2.pending
          rw [List.mem_cons]
          -- the new claim is the one that the frame leaves out
          refine or_iff_right ?_
          rintro rfl
          exact hmod rfl
        have hheld : Held u i f fd o s
            (s1.1, { s1.2 with pending := ⟨i, fd, o.ino⟩ :: s1.2.pending }) :=
          ⟨⟨hfilling.own.opened, hfilling.own.opener, hfilling.own.unshared⟩, hfilling.ne, hlock,
            fun _ => List.mem_cons_self, hmaking.fresh, hmaking.frame.trans hclaims⟩
        exact ⟨_, ⟨hq.inv hinv2, rfl, fun j hj => (hothers j hj).trans (hq.rely hinv2 j)⟩, hk.holder,
          hsec.steady hk.holder (hq.calm hinv2).toSteady, hheld.framed hframe⟩

/-- What `put` leaves for a `PutItem`. -/
inductive PutDone (u : Usage) (i : Nat) (info : Option Nat) (s : View) : Option Nat → View → Prop
  | failed {s' : View} (leaves : Leaves u i info none s s') : PutDone u i info s none s'
  | done {f fd : Nat} {o : OpenFile} {s' : View} (hinfo : info = some f) (held : Held u i f fd o s s')
      (leaves : Leaves u i info (some fd) s s') : PutDone u i info s (some fd) s'

theorem putItem_keeps (h : Ready u i fc s) (hkey : Proper u key)
    (hlends : u.accounts = true → u.lends = true) :
    Keeps u may i (fc.putItem key) (fun r s' => PutDone u i fc.cacheInfoFd s r.2 s') s := by
  refine withCacheLock_keeps h.out h.info ?_ ?_
  · exact fun _ s1 hrely _ => .failed (.of_rely h.out hrely none)
  · intro f s1 hfd hinv1 hframe hsec
    rw [hfd]
    refine (createKey_keeps hsec (h.dir f hfd) hkey).andThen hinv1 ?_
    intro created s2 hinv2 hcreated
    cases created with
    | none =>
        apply keeps_pure
        intro s3 hrely hinv3
        have hdone : Done u i f s1 s3 :=
          Done.kept ⟨hcreated.1, hcreated.2⟩ (.of_rely hcreated.1.holder hrely) hinv3
        refine ⟨hdone.section_, fun s4 hframe4 hout4 _ => .failed (.of_frame hout4 ?_)⟩
        exact (hframe.trans hdone.frame).trans hframe4
    | some fd =>
        obtain ⟨o, hmaking, hlock⟩ := hcreated
        -- a new item can be locked at once, and is pending from then on
        have hitem : Keeps u may i (lockTheItem fd .exclusive false) (fun _ s3 =>
            InSection u i f 0 0 s3 ∧ ∃ o', Held u i f fd o' s1 s3) s2 := by
          refine (flockNew_keeps hmaking hlock).andThen hinv2 ?_
          rintro locked s3 hinv3 ⟨rfl, hmaking3⟩
          refine (claim_keeps hmaking3 rfl hlends).andThen hinv3 ?_
          rintro _ s4 - ⟨hsec4, hheld⟩
          apply keeps_pure
          intro s5 hrely hinv5
          have hk : Kept u i f s4 s5 := .of_rely hsec4.holder hrely
          exact ⟨hsec4.kept hk, _, hheld.framed (hk.frame hinv5)⟩
        refine hitem.andThen hinv2 ?_
        rintro locked s3 - ⟨hsec3, o', hheld⟩
        apply keeps_pure
        intro s4 hrely hinv4
        have hk : Kept u i f s3 s4 := .of_rely hsec3.holder hrely
        refine ⟨hsec3.kept hk, fun s5 hframe5 hout5 _ => ?_⟩
        have hheld5 := (hheld.framed (hk.frame hinv4)).framed hframe5
        have hall : Frame u i f (some fd) s s5 := hframe.weaken.trans hheld5.frame
        refine .done rfl ⟨hheld5.own, hheld5.ne, hheld5.excl, hheld5.claim, ?_, hall⟩ (.of_frame hout5 hall)
        intro x hx
        exact hheld.fresh x (hframe.own fd x nofun hheld.ne hx)

end Put

/-! ## Settling claims -/

/-- What counts once a claim is settled. -/
theorem counted_settle (hwf : s.1.Wf) {c : Pending} (hc : c ∈ s.2.pending) {n : Text}
    (hfile : (u.home ++ [n], c.ino) ∈ s.1.files) (hn : n ≠ cacheInfoName) {p : List Pending}
    (hp : ∀ d, d ∈ p ↔ d ∈ s.2.pending ∧ d.ino ≠ c.ino) :
    u.counted (s.1, { s.2 with pending := p }) = u.counted s + (s.1.data c.ino).length := by
  have hsum := sum_change (u.weight s) (u.weight (s.1, { s.2 with pending := p }))
    (files_nodup hwf) hfile ?_
  · have hbefore : u.weight s (u.home ++ [n], c.ino) = 0 :=
      if_neg fun hx => hx.2 c hc rfl
    have hafter : u.weight (s.1, { s.2 with pending := p }) (u.home ++ [n], c.ino) =
        (s.1.data c.ino).length :=
      if_pos ⟨isItem_name hn, fun d hd => ((hp d).mp hd).2⟩
    rw [hbefore, hafter] at hsum
    exact hsum
  · intro e he hne
    have hino : c.ino ≠ e.2 := by
      intro hino
      refine hne ?_
      exact hwf.eq_of_ino (Kernel.mem_entries_of_file he) (Kernel.mem_entries_of_file hfile) hino.symm
    have hfree : (∀ d ∈ p, d.ino ≠ e.2) ↔ ∀ d ∈ s.2.pending, d.ino ≠ e.2 := by
      constructor
      · intro hall d hd
        by_cases hdc : d.ino = c.ino
        · rw [hdc]
          exact hino
        · exact hall d ((hp d).mpr ⟨hd, hdc⟩)
      · exact fun hall d hd => hall d ((hp d).mp hd).1
    simp only [weight, hfree]

section Settle

variable {fc : FileCache}

/-- `~PutItem` in its section. -/
theorem settle_keeps (hinv : u.Inv s) (hsec : InSection u i f 0 0 s) (hown : Own u i fd o s)
    (hne : fd ≠ f) (hclaim : u.accounts = true → ⟨i, fd, o.ino⟩ ∈ s.2.pending) :
    Keeps u may i (do
      let recorded ← getCacheInfoSize f
      let size ← getFileSize fd
      let _ ← updateCacheInfoSize f ((recorded + size) % 2 ^ 64)
      pure ()) (fun _ s' => InSection u i f 0 0 s' ∧ Frame u i f (some fd) s s' ∧ Own u i fd o s' ∧
        ∀ c ∈ s'.2.pending, c.ino ≠ o.ino) s := by
  refine (getCacheInfoSize_keeps hsec.holder).andThen hinv ?_
  rintro recorded s1 hinv1 ⟨hk1, hrecorded⟩
  have hclaim1 : u.accounts = true → ⟨i, fd, o.ino⟩ ∈ s1.2.pending := by
    rw [hk1.calm.pending]
    exact hclaim
  have hown1 := hk1.own fd o hne hown
  have hsame : u.accounts = true → ∀ s2, Kept u i f s1 s2 → s2.1.data o.ino = s1.1.data o.ino :=
    fun hacc s2 hk => hk.claimed hacc _ (hclaim1 hacc) rfl
  refine (getFileSize_keeps hk1.holder hown1 hne hsame hinv1).andThen hinv1 ?_
  rintro size s2 hinv2 ⟨hk2, hsize⟩
  have hk := hk1.trans hk2
  have hown2 := hk2.own fd o hne hown1
  have hclaim2 : u.accounts = true → ⟨i, fd, o.ino⟩ ∈ s2.2.pending := by
    rw [hk2.calm.pending]
    exact hclaim1
  have hp : ∀ d, d ∈ s2.2.pending.filter (fun c => c.ino ≠ o.ino) ↔
      d ∈ s2.2.pending ∧ d.ino ≠ o.ino := by
    intro d
    rw [List.mem_filter, decide_eq_true_eq]
  have hupdate : Keeps u may i (updateCacheInfoSize f ((recorded + size) % 2 ^ 64)) (fun _ s3 =>
      Updated u i f (s2.2.pending.filter fun c => c.ino ≠ o.ino) s2 s3) s2 := by
    refine updateCacheInfoSize_keeps hk.holder _ List.filter_sublist ?_ fun hacc => ?_
    · intro c hc hci
      refine (hp c).mpr ⟨hc, fun hino => hci ?_⟩
      have hacc := hinv2.accounts_of_claim hc
      exact congrArg Pending.client
        (List.inj_on_of_nodup_map (hinv2.books hacc).distinct hc (hclaim2 hacc) hino)
    · obtain ⟨-, n, -, -, -, -, -, hfile, hn⟩ := (hinv2.books hacc).claim _ (hclaim2 hacc)
      have hsettled := counted_settle hinv2.wf (hclaim2 hacc) hfile hn hp
      have hbalance := (hsec.kept hk).balance hacc
      have hsmall : u.counted (s2.1, { s2.2 with pending := s2.2.pending.filter fun c => c.ino ≠ o.ino }) <
          2 ^ 64 := Nat.lt_of_le_of_lt (counted_le _) (hinv2.books hacc).small
      have hsum : recorded + size =
          u.counted (s2.1, { s2.2 with pending := s2.2.pending.filter fun c => c.ino ≠ o.ino }) := by
        rw [hsettled, hrecorded hacc, hsize hacc, ← hk2.calm.recorded hacc]
        show u.recorded s2 + _ = u.counted s2 + (s2.1.data o.ino).length
        rw [hsame hacc s2 hk2]
        omega
      rw [hsum]
      exact ⟨Nat.mod_eq_of_lt hsmall, Nat.mod_lt _ (by decide)⟩
  refine hupdate.andThen hinv2 ?_
  intro _ s3 hinv3 hupdated
  apply keeps_pure
  intro s4 hrely hinv4
  have hk4 : Kept u i f s3 s4 := .of_rely hupdated.section_.holder hrely
  have hupdated4 := hupdated.kept hk4 hinv4
  refine ⟨hupdated4.section_, ?_, hupdated4.own fd o hne hown2, ?_⟩
  · refine (hk.frame hinv2).weaken.trans ⟨fun g x _ hg hx => hupdated4.own g x hg hx,
      fun _ => hupdated4.info, hupdated4.file, ?_⟩
    intro c hc hmod
    rw [hupdated4.pending, hp]
    refine and_iff_left_of_imp fun hmem hino => ?_
    -- a claim of the client to the same file has the same descriptor
    obtain ⟨x, hx, hxino, hxlock⟩ := hinv2.own_of_claim hmem hc
    have hfd : c.fd ≠ fd := fun heq => hmod (congrArg some heq.symm)
    have hexcl := hinv2.wf.alone c.fd fd x o hx.opened hown2.opened hfd (hxino.trans hino) hxlock
    have hacc := hinv2.accounts_of_claim hmem
    rw [hinv2.claim_locked hacc hown2.opened (hclaim2 hacc) rfl] at hexcl
    cases hexcl
  · rw [hupdated4.pending]
    exact fun c hc => ((hp c).mp hc).2

/-- A claim to a file of the client's own is the client's. -/
theorem Inv.client_of_claim (hinv : u.Inv s) (hown : Own u i fd o s) {c : Pending}
    (hc : c ∈ s.2.pending) (hfd : c.fd = fd) : c.client = i := by
  obtain ⟨x, n, hx, hopener, -⟩ := (hinv.books (hinv.accounts_of_claim hc)).claim c hc
  rw [hfd, hown.opened] at hx
  obtain rfl := Option.some.inj hx
  rw [← hopener, hown.opener]

/-- Closing a descriptor of one's own that has no claim. -/
theorem closeOwn_keeps {α : Type} {info : Option Nat} {k : Bool → Sys α} {Q : α → View → Prop}
    (hout : Out i s) (hown : Own u i fd o s) (hinfo : info ≠ some fd)
    (hclaims : ∀ c ∈ s.2.pending, c.client = i → c.fd ≠ fd)
    (hrest : ∀ r s', u.Inv s' → Leaves u i info (some fd) s s' →
      (∀ c ∈ s'.2.pending, c.client = i → c.fd ≠ fd) → Keeps u may i (k r) Q s') :
    Keeps u may i (call (.close fd) >>= k) Q s := by
  apply keeps_call
  intro s1 hrely hinv1
  have hown1 := hown.of_rely hrely
  have hclaims1 : ∀ c ∈ s1.2.pending, c.client = i → c.fd ≠ fd :=
    fun c hc hi => hclaims c ((hrely.claims c hi).mp hc) hi
  refine ⟨trivial, fun r w hexec _ => ?_⟩
  obtain ⟨-, rfl⟩ := Prod.mk.inj (Option.some.inj hexec)
  have hunclaimed : u.accounts = true → ∀ c ∈ s1.2.pending, c.fd ≠ fd :=
    fun _ c hc hfd => hclaims1 c hc (hinv1.client_of_claim hown1 hc hfd) hfd
  have hmove : u.Move i (.close fd) r s1 (s1.1.setOpen fd none, s1.2) :=
    .close hinv1 hown1 (hout.of_rely hrely fd) hunclaimed r
  refine ⟨s1.2, hmove, hrest r _ hmove.inv ?_ hclaims1⟩
  refine ⟨fun g => hout.of_rely hrely g, ?_, ?_, ?_⟩
  · exact fun g x hmod _ hx =>
      (hx.of_rely hrely).setOpen_of_ne (fun hg => hmod (congrArg some hg.symm)) s1.2
  · intro g hg hx
    obtain ⟨x, hx, hinfo', hwho⟩ := hx.of_rely hrely
    have hne : g ≠ fd := by
      rintro rfl
      exact hinfo hg
    exact ⟨x, by rwa [Kernel.setOpen_opened_of_ne hne], hinfo', hwho⟩
  · exact fun c hc _ => hrely.claims c hc

theorem Leaves.trans {info mod : Option Nat} {s'' : View} (h : Leaves u i info mod s s')
    (h' : Leaves u i info mod s' s'') : Leaves u i info mod s s'' where
  out := h'.out
  own := fun g x hmod hg hx => h'.own g x hmod hg (h.own g x hmod hg hx)
  info := fun g hg hx => h'.info g hg (h.info g hg hx)
  claims := fun c hc hmod => (h'.claims c hc hmod).trans (h.claims c hc hmod)

/-- When a `PutItem` is destroyed, its file is no longer pending. -/
theorem destroyPutItem_keeps (h : Ready u i fc s)
    (hready : u.accounts = true → fc.cacheInfoFd ≠ none) (hown : Own u i fd o s)
    (hne : fc.cacheInfoFd ≠ some fd) (hclaim : u.accounts = true → ⟨i, fd, o.ino⟩ ∈ s.2.pending)
    (hinv : u.Inv s) :
    Keeps u may i (fc.destroyPutItem (some fd)) (fun _ s' =>
      Leaves u i fc.cacheInfoFd (some fd) s s' ∧ ∀ c ∈ s'.2.pending, c.client = i → c.fd ≠ fd) s := by
  have hsettle : Keeps u may i (withCacheLock fc.cacheInfoFd () fun info => do
      let recorded ← getCacheInfoSize info
      let size ← getFileSize fd
      let _ ← updateCacheInfoSize info ((recorded + size) % 2 ^ 64)
      pure ()) (fun _ s' => Leaves u i fc.cacheInfoFd (some fd) s s' ∧ Own u i fd o s' ∧
        ∀ c ∈ s'.2.pending, c.client = i → c.fd ≠ fd) s := by
    refine withCacheLock_keeps h.out h.info ?_ ?_
    · intro hnone s1 hrely hinv1
      refine ⟨.of_rely h.out hrely _, hown.of_rely hrely, fun c hc _ => ?_⟩
      -- with a pending file the cache has been opened
      exact absurd hnone (hready (hinv1.accounts_of_claim hc))
    · intro f s1 hf hinv1 hframe hsec
      have hfd : fd ≠ f := by
        rintro rfl
        exact hne hf
      have hclaim1 : u.accounts = true → ⟨i, fd, o.ino⟩ ∈ s1.2.pending :=
        fun hacc => (hframe.claims ⟨i, fd, o.ino⟩ rfl nofun).mpr (hclaim hacc)
      refine (settle_keeps hinv1 hsec (hframe.own fd o nofun hfd hown) hfd hclaim1).mono ?_
      rintro _ s2 hinv2 ⟨hsec2, hframe2, hown2, hfree⟩
      refine ⟨hsec2, fun s3 hframe3 hout3 _ => ⟨?_, hframe3.own fd o nofun hfd hown2, ?_⟩⟩
      · rw [hf]
        exact .of_frame hout3 ((hframe.weaken.trans hframe2).trans hframe3.weaken)
      · intro c hc hi hcfd
        -- a claim with this descriptor would be one to the same file, and this has none
        have hc2 := (hframe3.claims c hi nofun).mp hc
        obtain ⟨x, hx, hino, -⟩ := hinv2.own_of_claim hc2 hi
        have hopened := hx.opened
        rw [hcfd, hown2.opened] at hopened
        obtain rfl := Option.some.inj hopened
        exact hfree c hc2 hino.symm
  refine hsettle.andThen hinv ?_
  rintro _ s1 hinv1 ⟨hleaves, hown1, hfree⟩
  refine closeOwn_keeps hleaves.out hown1 hne hfree ?_
  intro _ s2 _ hleaves2 hfree2
  apply keeps_pure
  intro s3 hrely _
  refine ⟨(hleaves.trans hleaves2).rely hrely, fun c hc hi => hfree2 c ((hrely.claims c hi).mp hc) hi⟩

/-- `~PutItem` without a descriptor. -/
theorem destroyEmptyPutItem_keeps (h : Ready u i fc s) (hinv : u.Inv s) :
    Keeps u may i (fc.destroyPutItem none) (fun _ s' => Leaves u i fc.cacheInfoFd none s s') s := by
  have hsettle : Keeps u may i (withCacheLock fc.cacheInfoFd () fun info => do
      let recorded ← getCacheInfoSize info
      let size ← pure 0
      let _ ← updateCacheInfoSize info ((recorded + size) % 2 ^ 64)
      pure ()) (fun _ s' => Leaves u i fc.cacheInfoFd none s s') s := by
    refine locked_keeps h fun f s1 _ hinv1 hsec => ?_
    refine (getCacheInfoSize_keeps hsec.holder).andThen hinv1 ?_
    rintro recorded s2 hinv2 ⟨hk, hrecorded⟩
    have hupdate : Keeps u may i (updateCacheInfoSize f ((recorded + 0) % 2 ^ 64))
        (fun _ s3 => Updated u i f s2.2.pending s2 s3) s2 := by
      refine updateCacheInfoSize_keeps hk.holder s2.2.pending (List.Sublist.refl _)
        (fun _ hc _ => hc) fun hacc => ?_
      have hsmall : u.counted s2 < 2 ^ 64 := Nat.lt_of_le_of_lt (counted_le s2) (hinv2.books hacc).small
      have hsum : recorded = u.counted s2 := by
        rw [hrecorded hacc]
        exact (hsec.kept hk).balance hacc
      rw [Nat.add_zero, hsum]
      exact ⟨Nat.mod_eq_of_lt hsmall, Nat.mod_lt _ (by decide)⟩
    refine hupdate.andThen hinv2 ?_
    intro _ s3 hinv3 hupdated
    apply keeps_pure
    intro s4 hrely hinv4
    have hk3 : Kept u i f s3 s4 := .of_rely hupdated.section_.holder hrely
    exact Done.kept ⟨hupdated.section_, (hk.frame hinv2).trans hupdated.frame⟩ hk3 hinv4
  refine hsettle.andThen hinv ?_
  intro _ s1 _ hleaves
  apply keeps_pure
  exact fun s2 hrely _ => hleaves.rely hrely

end Settle

end Usage

end Skunk.BesUtils
