import Skunk.BesUtils.CacheOps

/-!
# Looking up and removing items

A client that opens an item that is already there asks for its lock without waiting. An exclusive lock
that it gets tells that nobody has the item open with a lock: it is neither pending nor `cache_info`, and
what it holds stays as it is. So `del` and `purge` remove what counts, and subtract its size.
-/

namespace Skunk.BesUtils

open Effect Posix

namespace Usage

variable {u : Usage} {may : CacheOp → Prop} {i f fd : Nat} {o : OpenFile} {s s' : View}
  {fc : FileCache} {key : Text}

/-- A file that has been opened since `s`; nothing else has changed. -/
structure Opened (u : Usage) (i f fd : Nat) (o : OpenFile) (s s' : View) : Prop where
  holder : s'.2.holder = some (i, f)
  own : Own u i fd o s'
  ne : fd ≠ f
  fresh : Fresh u i fd s
  unclaimed : u.accounts = true → ∀ c ∈ s'.2.pending, c.fd ≠ fd
  steady : u.Steady s s'
  frame : Frame u i f (some fd) s s'

theorem Opened.kept {s'' : View} (h : Opened u i f fd o s s') (hk : Kept u i f s' s'')
    (hinv : u.Inv s'') : Opened u i f fd o s s'' where
  holder := hk.holder
  own := hk.own fd o h.ne h.own
  ne := h.ne
  fresh := h.fresh
  unclaimed := by
    rw [hk.calm.pending]
    exact h.unclaimed
  steady := h.steady.trans hk.calm.toSteady
  frame := h.frame.trans (hk.frame hinv).weaken

theorem Opened.closing (h : Opened u i f fd o s s') : Closing u i f fd s s' :=
  ⟨h.holder, ⟨o, h.own⟩, h.ne, h.unclaimed, h.frame⟩

/-- While the file is open, the client has all that it had. -/
theorem Opened.frame_none (h : Opened u i f fd o s s') : Frame u i f none s s' where
  own := by
    intro g x _ hg hx
    refine h.frame.own g x ?_ hg hx
    rintro ⟨⟩
    exact h.fresh x hx
  info := h.frame.info
  file := h.frame.file
  claims := by
    intro c _ _
    rw [h.steady.pending]

/-- An exclusive lock on a file shows that it is not pending. -/
theorem Opened.free (h : Opened u i f fd o s s') (hinv : u.Inv s') (hlock : o.lock = some .exclusive) :
    ∀ c ∈ s'.2.pending, c.ino ≠ o.ino := by
  intro c hc hino
  have hacc := hinv.accounts_of_claim hc
  obtain ⟨x, n, hx, -, -, hxino, hxlock, -⟩ := (hinv.books hacc).claim c hc
  have hne : fd ≠ c.fd := Ne.symm (h.unclaimed hacc c hc)
  have hnone := hinv.wf.alone fd c.fd o x h.own.opened hx hne (hino.symm.trans hxino.symm) hlock
  rw [hxlock] at hnone
  cases hnone

/-- A file is opened in the section. -/
theorem opened_addOpen (hinv : u.Inv s') (hk : Kept u i f s s') {ino : Nat} :
    Opened u i f s'.1.nextFd ⟨ino, 0, none, i⟩ s (s'.1.addOpen i ino, s'.2) := by
  obtain ⟨x, hx, -⟩ := hinv.exists_info hk.holder
  have hne : s'.1.nextFd ≠ f := (hinv.next_ne hx).symm
  have hd : Differs s'.1 (s'.1.addOpen i ino) s'.1.nextFd (some ⟨ino, 0, none, i⟩) :=
    ⟨rfl, rfl, rfl, rfl⟩
  refine ⟨hk.holder, ⟨Kernel.addOpen_opened_self, rfl, hinv.next_unshared hk.holder⟩, hne, ?_, ?_,
    hk.calm.toSteady.trans (.of_differs hd), ?_⟩
  · exact fun y hy => hinv.fresh_next y (hk.own _ y hne hy)
  · intro hacc c hc
    obtain ⟨y, -, hy, -⟩ := (hinv.books hacc).claim c hc
    exact hinv.next_ne hy
  · have hopened : ∀ g y, s'.1.opened g = some y → (s'.1.addOpen i ino).opened g = some y := by
      intro g y hy
      rw [Kernel.addOpen_opened_of_ne (hinv.next_ne hy)]
      exact hy
    exact (hk.frame hinv).weaken.trans (frame_of_opened hopened (fun _ he => he) _)

/-- Opening an item to remove it. -/
theorem openWrite_keeps {path : Text} (hin : s.2.holder = some (i, f)) :
    Keeps u may i (call (.openWrite path)) (fun r s' =>
      (r = none → Kept u i f s s' ∧ ∃ s1, u.Inv s1 ∧ Kept u i f s s1 ∧ s1.1.fileInode path = none) ∧
      ∀ fd, r = some fd → ∃ ino, Opened u i f fd ⟨ino, 0, none, i⟩ s s' ∧
        (resolve (cStr path), ino) ∈ s'.1.files) s := by
  refine keeps_section hin ?_ ?_
  · rintro r s1 s2 hinv2 hk ⟨hnone, hsome⟩
    refine ⟨fun hr => ?_, fun fd hr => ?_⟩
    · exact ⟨(hnone hr).1.trans hk, (hnone hr).2⟩
    · obtain ⟨ino, hopened, hfile⟩ := hsome fd hr
      exact ⟨ino, hopened.kept hk hinv2, hk.calm.files.mem_iff.mpr hfile⟩
  · intro s1 hinv1 hk
    refine ⟨trivial, fun r w hexec _ => ?_⟩
    rcases Kernel.exec_openWrite hexec with ⟨hnone, rfl, rfl⟩ | ⟨ino, hino, rfl, rfl⟩
    · exact ⟨s1.2, .same hinv1 rfl, hk.holder, fun _ => ⟨hk, s1, hinv1, hk, hnone⟩, nofun⟩
    · obtain ⟨loc, hloc, hlook⟩ := Option.bind_eq_some_iff.mp hino
      have hfile := hinv1.wf.lookup_files.mp hlook
      have hlt := hinv1.wf.entry_lt _ (Kernel.mem_entries_of_file hfile)
      refine ⟨s1.2, .addOpen hinv1 hlt (.inl ⟨f, hk.holder⟩) rfl, hk.holder, nofun, ?_⟩
      rintro _ ⟨⟩
      refine ⟨ino, opened_addOpen hinv1 hk, ?_⟩
      rw [← Kernel.locate_eq hloc]
      exact hfile

/-- Opening an item to read it. -/
theorem openRead_keeps {path : Text} (hin : s.2.holder = some (i, f)) :
    Keeps u may i (call (.openRead path)) (fun r s' =>
      (r = none → Kept u i f s s') ∧
      ∀ fd, r = some fd → ∃ o, Opened u i f fd o s s' ∧ o.lock = none) s := by
  refine keeps_section hin ?_ ?_
  · rintro r s1 s2 hinv2 hk ⟨hnone, hsome⟩
    refine ⟨fun hr => (hnone hr).trans hk, fun fd hr => ?_⟩
    obtain ⟨o, hopened, hlock⟩ := hsome fd hr
    exact ⟨o, hopened.kept hk hinv2, hlock⟩
  · intro s1 hinv1 hk
    refine ⟨trivial, fun r w hexec _ => ?_⟩
    rcases Kernel.exec_openRead hexec with ⟨-, rfl, rfl⟩ | ⟨ino, hino, rfl, rfl⟩
    · exact ⟨s1.2, .same hinv1 rfl, hk.holder, fun _ => hk, nofun⟩
    · obtain ⟨loc, -, hlook⟩ := Option.bind_eq_some_iff.mp hino
      have hlt := hinv1.wf.entry_lt _ (hinv1.wf.lookup_entries.mp hlook)
      refine ⟨s1.2, .addOpen hinv1 hlt (.inl ⟨f, hk.holder⟩) rfl, hk.holder, nofun, ?_⟩
      rintro _ ⟨⟩
      exact ⟨_, opened_addOpen hinv1 hk, rfl⟩

/-- What a lock that may be refused leaves. -/
def Tried (u : Usage) (i f fd : Nat) (o : OpenFile) (mode : FlockMode) (s : View) (r : Bool) (s' : View) :
    Prop :=
  (r = false → Opened u i f fd o s s') ∧
  (r = true → Opened u i f fd { o with lock := some mode } s s' ∧ ¬ u.IsInfo s'.1 o.ino)

theorem Tried.kept {mode : FlockMode} {r : Bool} {s'' : View} (h : Tried u i f fd o mode s r s')
    (hk : Kept u i f s' s'') (hinv : u.Inv s'') : Tried u i f fd o mode s r s'' := by
  refine ⟨fun hr => (h.1 hr).kept hk hinv, fun hr => ⟨(h.2 hr).1.kept hk hinv, ?_⟩⟩
  rw [hk.calm.isInfo]
  exact (h.2 hr).2

/-- Asking for the lock of an item without waiting. -/
theorem flockOld_keeps (h : Opened u i f fd o s s') (hlock : o.lock = none) (mode : FlockMode) :
    Keeps u may i (call (.flock fd mode true)) (Tried u i f fd o mode s) s' := by
  refine keeps_section h.holder ?_ ?_
  · exact fun r s1 s2 hinv2 hk htried => htried.kept hk hinv2
  · intro s1 hinv1 hk
    have hopened := h.kept hk hinv1
    refine ⟨trivial, fun r w hexec _ => ?_⟩
    rcases Kernel.exec_flock hopened.own.opened hexec with ⟨rfl, hgrants, rfl⟩ | ⟨rfl, rfl, -⟩
    · have hinfo : ¬ u.IsInfo s1.1 o.ino := by
        intro hinfo
        obtain ⟨x, hx, hxinfo, hex, -⟩ := hinv1.holds i f hk.holder
        have hsame : x.ino = o.ino := hinv1.wf.ino_eq hxinfo hinfo
        rcases (Kernel.grants_iff hinv1.wf).mp hgrants f x hx h.ne.symm hsame with hnone | ⟨hsh, -⟩
        · rw [hnone] at hex
          cases hex
        · rw [hsh] at hex
          cases hex
      have hmove : u.Move i (.flock fd mode true) true s1
          (s1.1.setOpen fd (some { o with lock := some mode }), s1.2) :=
        .lockItem hinv1 hk.holder hopened.own hinfo hlock hgrants
      have hd : Differs s1.1 (s1.1.setOpen fd (some { o with lock := some mode })) fd
          (some { o with lock := some mode }) := ⟨rfl, rfl, rfl, rfl⟩
      refine ⟨s1.2, hmove, hk.holder, nofun, fun _ => ⟨?_, hinfo⟩⟩
      exact ⟨hk.holder, ⟨Kernel.setOpen_opened_self, hopened.own.opener, hopened.own.unshared⟩, h.ne,
        h.fresh, hopened.unclaimed, hopened.steady.trans (.of_differs hd),
        hopened.frame.trans (frame_setOpen h.ne)⟩
    · have hmark : u.Mark i (.flock fd mode true) false s1 s1 := .inl ⟨rfl, fun hx => nomatch hx.2⟩
      exact ⟨s1.2, .same hinv1 hmark, hk.holder, fun _ => hopened, nofun⟩

theorem lockOld_keeps (hinv : u.Inv s') (h : Opened u i f fd o s s') (hlock : o.lock = none)
    (mode : FlockMode) :
    Keeps u may i (lockTheItem fd mode true) (Tried u i f fd o mode s) s' := by
  refine (flockOld_keeps h hlock mode).andThen hinv ?_
  intro r s1 hinv1 htried
  cases r with
  | false =>
      apply keeps_pure
      intro s2 hrely hinv2
      exact htried.kept (.of_rely (htried.1 rfl).holder hrely) hinv2
  | true =>
      refine (futimes_keeps (htried.2 rfl).1.holder).andThen hinv1 ?_
      intro _ s2 hinv2 hk
      apply keeps_pure
      intro s3 hrely hinv3
      exact (htried.kept hk hinv2).kept (.of_rely hk.holder hrely) hinv3

/-! ## `get` -/

/-- What `get` leaves for an `Item`. -/
inductive GetDone (u : Usage) (i : Nat) (info : Option Nat) (s : View) : Option Nat → View → Prop
  | failed {s' : View} (leaves : Leaves u i info none s s') : GetDone u i info s none s'
  | done {f fd : Nat} {o : OpenFile} {s' : View} (hinfo : info = some f) (ne : fd ≠ f)
      (own : Own u i fd o s') (fresh : Fresh u i fd s) (leaves : Leaves u i info none s s') :
      GetDone u i info s (some fd) s'

theorem get_keeps (h : Ready u i fc s) :
    Keeps u may i (fc.get key) (fun r s' => GetDone u i fc.cacheInfoFd s r.2 s') s := by
  refine withCacheLock_keeps h.out h.info ?_ ?_
  · exact fun _ s1 hrely _ => .failed (.of_rely h.out hrely none)
  · intro f s1 hfd hinv1 hframe hsec
    rw [hfd]
    refine (openRead_keeps hsec.holder).andThen hinv1 ?_
    rintro opened s2 hinv2 ⟨hnone, hsome⟩
    cases opened with
    | none =>
        apply keeps_pure
        intro s3 hrely hinv3
        have hk : Kept u i f s1 s3 := (hnone rfl).trans (.of_rely (hnone rfl).holder hrely)
        refine ⟨hsec.kept hk, fun s4 hframe4 hout4 _ => .failed (.of_frame hout4 ?_)⟩
        exact (hframe.trans (hk.frame hinv3)).trans hframe4
    | some fd =>
        obtain ⟨o, hopened, hlock⟩ := hsome fd rfl
        refine (lockOld_keeps hinv2 hopened hlock .shared).andThen hinv2 ?_
        intro locked s3 hinv3 htried
        have hitem : ∃ o', Opened u i f fd o' s1 s3 := by
          cases locked with
          | false => exact ⟨o, htried.1 rfl⟩
          | true => exact ⟨_, (htried.2 rfl).1⟩
        obtain ⟨o', hopened3⟩ := hitem
        apply keeps_pure
        intro s4 hrely hinv4
        have hopened4 := hopened3.kept (.of_rely hopened3.holder hrely) hinv4
        refine ⟨hsec.steady hopened4.holder hopened4.steady, fun s5 hframe5 hout5 _ => ?_⟩
        have hfresh : Fresh u i fd s :=
          fun x hx => hopened4.fresh x (hframe.own fd x nofun hopened4.ne hx)
        exact .done rfl hopened4.ne (hframe5.own fd o' nofun hopened4.ne hopened4.own) hfresh
          (.of_frame hout5 ((hframe.trans hopened4.frame_none).trans hframe5))

/-! ## Removing a file -/

/-- The file at `loc`, which is not `cache_info`, has been removed, and nothing else has changed. -/
structure Dropped (u : Usage) (i f : Nat) (loc : List Text) (s s' : View) : Prop where
  ne : u.infoLoc ≠ loc
  gone : ∃ s1, u.Inv s1 ∧ Kept u i f s s1 ∧ Kept u i f (s1.1.dropFile loc, s1.2) s'

section Dropped

variable {loc : List Text}

theorem Dropped.kept {s'' : View} (h : Dropped u i f loc s s') (hk : Kept u i f s' s'') :
    Dropped u i f loc s s'' := by
  obtain ⟨s1, hinv1, hk1, hk2⟩ := h.gone
  exact ⟨h.ne, s1, hinv1, hk1, hk2.trans hk⟩

theorem Dropped.holder (h : Dropped u i f loc s s') : s'.2.holder = some (i, f) := by
  obtain ⟨s1, -, -, hk⟩ := h.gone
  exact hk.holder

theorem Dropped.pending (h : Dropped u i f loc s s') : s'.2.pending = s.2.pending := by
  obtain ⟨s1, -, hk1, hk2⟩ := h.gone
  exact hk2.calm.pending.trans hk1.calm.pending

theorem Dropped.own (h : Dropped u i f loc s s') (hown : Own u i fd o s) (hne : fd ≠ f) :
    Own u i fd o s' := by
  obtain ⟨s1, -, hk1, hk2⟩ := h.gone
  have hown1 := hk1.own fd o hne hown
  exact hk2.own fd o hne ⟨hown1.opened, hown1.opener, hown1.unshared⟩

theorem Dropped.file (h : Dropped u i f loc s s') {e : List Text × Nat} (he : e ∈ s.1.files)
    (hne : e.1 ≠ loc) : e ∈ s'.1.files := by
  obtain ⟨s1, -, hk1, hk2⟩ := h.gone
  refine hk2.calm.files.mem_iff.mpr (List.mem_filter.mpr ⟨hk1.calm.files.mem_iff.mpr he, ?_⟩)
  simpa using hne

theorem Dropped.folders (h : Dropped u i f loc s s') : ∀ e ∈ s.1.folders, e ∈ s'.1.folders := by
  obtain ⟨s1, -, hk1, hk2⟩ := h.gone
  exact fun e he => hk2.calm.folders e (hk1.calm.folders e he)

theorem Dropped.frame (h : Dropped u i f loc s s') (hinv' : u.Inv s') (mod : Option Nat) :
    Frame u i f mod s s' where
  own := fun g x _ hg hx => h.own hx hg
  info := fun _ => hinv'.infoFd h.holder
  file := fun ino hino => h.file hino h.ne
  claims := by
    intro c _ _
    rw [h.pending]

variable (hacc : u.accounts = true)
include hacc

theorem Dropped.recorded (h : Dropped u i f loc s s') : u.recorded s' = u.recorded s := by
  obtain ⟨s1, -, hk1, hk2⟩ := h.gone
  rw [hk2.calm.recorded hacc, recorded_dropFile h.ne, hk1.calm.recorded hacc]

theorem Dropped.data (h : Dropped u i f loc s s') {e : List Text × Nat} (he : e ∈ s.1.files)
    (hitem : IsItem u.home e.1) (hfree : ∀ c ∈ s.2.pending, c.ino ≠ e.2) (hne : e.1 ≠ loc) :
    s'.1.data e.2 = s.1.data e.2 := by
  obtain ⟨s1, -, hk1, hk2⟩ := h.gone
  have hmem : e ∈ (s1.1.dropFile loc).files := by
    refine List.mem_filter.mpr ⟨hk1.calm.files.mem_iff.mpr he, ?_⟩
    simpa using hne
  rw [hk2.calm.data hacc e hmem hitem ?_]
  · exact hk1.calm.data hacc e he hitem hfree
  · show ∀ c ∈ s1.2.pending, c.ino ≠ e.2
    rw [hk1.calm.pending]
    exact hfree

/-- What counted counts no more. -/
theorem Dropped.counted (h : Dropped u i f loc s s') {ino : Nat} (he : (loc, ino) ∈ s.1.files)
    (hitem : IsItem u.home loc) (hfree : ∀ c ∈ s.2.pending, c.ino ≠ ino) :
    u.counted s' + (s.1.data ino).length = u.counted s := by
  obtain ⟨s1, hinv1, hk1, hk2⟩ := h.gone
  have hfree1 : ∀ c ∈ s1.2.pending, c.ino ≠ ino := by
    rw [hk1.calm.pending]
    exact hfree
  have hdrop := counted_dropFile hinv1.wf (hk1.calm.files.mem_iff.mpr he) hitem hfree1
  rw [hk2.calm.counted hacc, ← hk1.calm.data hacc _ he hitem hfree, hdrop, hk1.calm.counted hacc]

/-- The recorded size has the bytes of the file too many. -/
theorem Dropped.section_ (h : Dropped u i f loc s s') {a ino : Nat} (hsec : InSection u i f 0 a s)
    (he : (loc, ino) ∈ s.1.files) (hitem : IsItem u.home loc)
    (hfree : ∀ c ∈ s.2.pending, c.ino ≠ ino) :
    InSection u i f 0 (a + (s.1.data ino).length) s' := by
  refine ⟨h.holder, fun _ => ?_⟩
  have hcounted := h.counted hacc he hitem hfree
  have hbalance := hsec.balance hacc
  rw [h.recorded hacc]
  omega

end Dropped

/-- Removing a file that is neither `cache_info` nor pending. -/
theorem remove_keeps {path : Text} (hin : s.2.holder = some (i, f))
    (hne : u.infoLoc ≠ resolve (cStr path))
    (hclaim : u.accounts = true → ∀ c ∈ s.2.pending, (resolve (cStr path), c.ino) ∉ s.1.files) :
    Keeps u may i (call (.remove path)) (fun r s' =>
      (r = false → Kept u i f s s') ∧ (r = true → Dropped u i f (resolve (cStr path)) s s')) s := by
  refine keeps_section hin ?_ ?_
  · exact fun r s1 s2 _ hk hpost =>
      ⟨fun hr => (hpost.1 hr).trans hk, fun hr => (hpost.2 hr).kept hk⟩
  · intro s1 hinv1 hk
    refine ⟨trivial, fun r w hexec _ => ?_⟩
    rcases Kernel.exec_remove hexec with ⟨rfl, rfl⟩ | ⟨loc, n, hloc, -, rfl, rfl⟩
    · exact ⟨s1.2, .same hinv1 rfl, hk.holder, fun _ => hk, nofun⟩
    · rw [Kernel.locate_eq hloc]
      refine ⟨s1.2, .dropFile hinv1 hk.holder hne ?_, hk.holder, nofun, fun _ => ?_⟩
      · intro hacc c hc hmem
        rw [hk.calm.pending] at hc
        exact hclaim hacc c hc (hk.calm.files.mem_iff.mp hmem)
      · exact ⟨hne, s1, hinv1, hk, .refl hk.holder⟩

/-- The size of what has been removed is subtracted. -/
theorem subtract_keeps {recorded removed : Nat} (hinv : u.Inv s)
    (hsec : InSection u i f 0 removed s) (hrecorded : u.accounts = true → recorded = u.recorded s) :
    Keeps u may i (do
      let left ← call (.subtract recorded removed)
      updateCacheInfoSize f left) (fun _ s' => Done u i f s s') s := by
  have hleft : Keeps u may i (call (.subtract recorded removed)) (fun r s' => Kept u i f s s' ∧
      r = (recorded + 2 ^ 64 - removed % 2 ^ 64) % 2 ^ 64) s := by
    refine (look_keeps (u := u) (c := .subtract recorded removed) hsec.holder
      (fun _ => (recorded + 2 ^ 64 - removed % 2 ^ 64) % 2 ^ 64) (fun _ => rfl) ?_ (fun _ _ => rfl)).mono ?_
    rotate_left
    · exact fun r s' _ ⟨s1, _, hk, hr, hk'⟩ => ⟨hk.trans hk', hr⟩
    · intro s' hk hacc
      have hbalance := hsec.balance hacc
      rw [hk.calm.recorded hacc, hrecorded hacc]
      exact ⟨rfl, by omega⟩
  refine hleft.andThen hinv ?_
  rintro left s1 hinv1 ⟨hk, rfl⟩
  have hupdate : Keeps u may i
      (updateCacheInfoSize f ((recorded + 2 ^ 64 - removed % 2 ^ 64) % 2 ^ 64))
      (fun _ s2 => Updated u i f s1.2.pending s1 s2) s1 := by
    refine updateCacheInfoSize_keeps hk.holder s1.2.pending (List.Sublist.refl _)
      (fun _ hc _ => hc) fun hacc => ?_
    have hbalance := (hsec.kept hk).balance hacc
    rw [hrecorded hacc, ← hk.calm.recorded hacc]
    have hsmall : u.counted s1 < 2 ^ 64 := Nat.lt_of_le_of_lt (counted_le s1) (hinv1.books hacc).small
    refine ⟨?_, Nat.mod_lt _ (by decide)⟩
    show _ = u.counted s1
    omega
  exact hupdate.mono fun _ s2 _ hupdated =>
    ⟨hupdated.section_, (hk.frame hinv1).trans hupdated.frame⟩

/-! ## `del` -/

/-- The pathname of a name leads to that name. -/
theorem resolve_keyFileName {n : Text} (hdir : fc.cacheDir = u.dir) (hn : IsFileName n) :
    resolve (cStr (fc.keyFileName n)) = u.home ++ [n] := by
  rw [FileCache.keyFileName, hdir, cStr_pathConcat u.noNul hn, resolve_pathConcat u.dir hn]
  rfl

theorem Closing.framed {s'' : View} (h : Closing u i f fd s s') (hframe : Frame u i f none s' s'')
    (hinv : u.Inv s'') (hin : s''.2.holder = some (i, f)) : Closing u i f fd s s'' := by
  obtain ⟨o, ho⟩ := h.own
  have hown : Own u i fd o s'' := hframe.own fd o nofun h.ne ho
  refine ⟨hin, ⟨o, hown⟩, h.ne, ?_, h.frame.trans hframe.weaken⟩
  intro hacc c hc hfd
  have hci : c.client = i := hinv.client_of_claim hown hc hfd
  exact h.unclaimed hacc c ((hframe.claims c hci nofun).mp hc) hfd

/-- An item that is locked exclusively can be removed. -/
structure Removable (u : Usage) (i f ino : Nat) (path : Text) (s : View) : Prop where
  holder : s.2.holder = some (i, f)
  file : (resolve (cStr path), ino) ∈ s.1.files
  info : ¬ u.IsInfo s.1 ino
  free : ∀ c ∈ s.2.pending, c.ino ≠ ino

theorem Removable.kept {ino : Nat} {path : Text} (h : Removable u i f ino path s)
    (hk : Kept u i f s s') : Removable u i f ino path s' where
  holder := hk.holder
  file := hk.calm.files.mem_iff.mpr h.file
  info := by
    rw [hk.calm.isInfo]
    exact h.info
  free := by
    rw [hk.calm.pending]
    exact h.free

theorem Removable.remove_keeps {ino : Nat} {path : Text} (h : Removable u i f ino path s)
    (hinv : u.Inv s) : Keeps u may i (call (.remove path)) (fun r s' =>
      (r = false → Kept u i f s s') ∧ (r = true → Dropped u i f (resolve (cStr path)) s s')) s := by
  refine Usage.remove_keeps h.holder ?_ ?_
  · intro hne
    refine h.info ?_
    show (u.infoLoc, ino) ∈ s.1.files
    rw [hne]
    exact h.file
  · intro _ c hc hmem
    exact h.free c hc (hinv.wf.ino_eq hmem h.file)

theorem del_keeps (h : Ready u i fc s) (hkey : Proper u key) :
    Keeps u may i (fc.del key) (fun _ s' => Leaves u i fc.cacheInfoFd none s s') s := by
  refine locked_keeps h fun f s1 hdir hinv1 hsec => ?_
  refine (openWrite_keeps hsec.holder).andThen hinv1 ?_
  rintro opened s2 hinv2 ⟨hnone, hsome⟩
  cases opened with
  | none =>
      apply keeps_pure
      intro s3 hrely hinv3
      have hk : Kept u i f s1 s3 := (hnone rfl).1.trans (.of_rely (hnone rfl).1.holder hrely)
      exact ⟨hsec.kept hk, hk.frame hinv3⟩
  | some fd =>
      obtain ⟨ino, hopened, hfile⟩ := hsome fd rfl
      refine newItem_keeps hinv1 hinv2 hopened.fresh ?_
      -- whatever happens to the lock, the item can be closed
      have hstop : ∀ {o s3}, Opened u i f fd o s1 s3 → ∀ s4, u.Rely i s3 s4 → u.Inv s4 →
          Closing u i f fd s1 s4 ∧ InSection u i f 0 0 s4 := by
        intro o s3 h3 s4 hrely hinv4
        have h4 := h3.kept (.of_rely h3.holder hrely) hinv4
        exact ⟨h4.closing, hsec.steady h4.holder h4.steady⟩
      refine (lockOld_keeps hinv2 hopened rfl .exclusive).andThen hinv2 ?_
      intro locked s3 hinv3 htried
      cases locked with
      | false => exact keeps_pure (hstop (htried.1 rfl))
      | true =>
          obtain ⟨hlocked, hinfo⟩ := htried.2 rfl
          have hremovable : Removable u i f ino (fc.keyFileName key) s3 := by
            refine ⟨hlocked.holder, ?_, hinfo, hlocked.free hinv3 rfl⟩
            exact hlocked.steady.files.mem_iff.mpr (hopened.steady.files.mem_iff.mp hfile)
          have hitem : u.accounts = true → IsItem u.home (resolve (cStr (fc.keyFileName key))) := by
            intro hacc
            rw [resolve_keyFileName hdir (hkey hacc).1]
            exact isItem_name (hkey hacc).2
          have hsame : u.accounts = true → ∀ s4, Kept u i f s3 s4 → s4.1.data ino = s3.1.data ino :=
            fun hacc s4 hk => hk.calm.data hacc _ hremovable.file (hitem hacc) hremovable.free
          refine (getFileSize_keeps hlocked.holder hlocked.own hlocked.ne hsame hinv3).andThen hinv3 ?_
          rintro size s4 hinv4 ⟨hk4, hsize⟩
          have hremovable4 := hremovable.kept hk4
          refine (hremovable4.remove_keeps hinv4).andThen hinv4 ?_
          rintro removed s5 hinv5 ⟨hstay, hgone⟩
          cases removed with
          | false => exact keeps_pure (hstop ((hlocked.kept hk4 hinv4).kept (hstay rfl) hinv5))
          | true =>
              have hdropped := hgone rfl
              have hsec5 : InSection u i f 0 size s5 := by
                refine ⟨hdropped.holder, fun hacc => ?_⟩
                have hsec4 : InSection u i f 0 0 s4 :=
                  (hsec.steady hlocked.holder hlocked.steady).kept hk4
                have := (hdropped.section_ hacc hsec4 hremovable4.file (hitem hacc)
                  hremovable4.free).balance hacc
                rw [hsame hacc s4 hk4] at this
                rw [hsize hacc]
                show u.recorded s5 + 0 = u.counted s5 + (s3.1.data ino).length
                omega
              have hclosing5 : Closing u i f fd s1 s5 :=
                (hlocked.closing.kept hk4 hinv4).framed (hdropped.frame hinv5 none) hinv5
                  hdropped.holder
              refine (getCacheInfoSize_keeps hdropped.holder).andThen hinv5 ?_
              rintro recorded s6 hinv6 ⟨hk6, hrecorded⟩
              have hrecorded6 : u.accounts = true → recorded = u.recorded s6 := by
                intro hacc
                rw [hrecorded hacc, hk6.calm.recorded hacc]
              refine (subtract_keeps hinv6 (hsec5.kept hk6) hrecorded6).mono ?_
              intro _ s7 hinv7 hdone
              refine ⟨?_, hdone.section_⟩
              exact (hclosing5.kept hk6 hinv6).framed hdone.frame hinv7 hdone.section_.holder

end Usage

end Skunk.BesUtils
