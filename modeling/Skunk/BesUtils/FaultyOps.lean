import Skunk.BesUtils.FaultyItems

/-!
# Operations under the lock, when calls fail

Each operation of a cache, from taking the lock to giving it back. Wherever one of them stops, what is
recorded is enough; where it subtracts, what it subtracts has been freed and is still recorded.
-/

namespace Skunk.BesUtils

open Effect Posix

namespace Faulty

variable {u : Usage} {i f fd n d : Nat} {info x : Option Nat} {op : CacheOp} {t : Session}
  {s₀ s s' s'' : View} {o : OpenFile} {fc : FileCache} {key : Text}

/-! ## Taking the lock -/

/-- What a client still has, but for what it had under `x`; `info` is its descriptor for `cache_info`. -/
structure Leaves (u : Usage) (i : Nat) (info x : Option Nat) (s s' : View) : Prop where
  own : ∀ g o, info ≠ some g → x ≠ some g → s.1.opened g = some o → o.opener = i → s'.1.opened g = some o
  info : ∀ f, info = some f → HasInfo u s.1 i f → HasInfo u s'.1 i f
  claims : ∀ c : Pending, c.client = i → c.fd < s.1.nextFd → x ≠ some c.fd →
    (c ∈ s'.2.pending ↔ c ∈ s.2.pending)
  next : s.1.nextFd ≤ s'.1.nextFd

theorem Leaves.of_rely (h : Rely u i s s') (info x : Option Nat) : Leaves u i info x s s' :=
  ⟨fun g o _ _ => h.own g o, fun _ _ => h.hasInfo, fun c hc _ _ => h.claims c hc, h.next⟩

theorem Leaves.trans (h : Leaves u i info x s s') (h' : Leaves u i info x s' s'') :
    Leaves u i info x s s'' where
  own := fun g o hg hx ho hi => h'.own g o hg hx (h.own g o hg hx ho hi) hi
  info := fun g hg hinfo => h'.info g hg (h.info g hg hinfo)
  claims := fun c hc hlt hx =>
    (h'.claims c hc (Nat.lt_of_lt_of_le hlt h.next) hx).trans (h.claims c hc hlt hx)
  next := Nat.le_trans h.next h'.next

theorem Leaves.weaken (h : Leaves u i info none s s') (x : Option Nat) : Leaves u i info x s s' :=
  ⟨fun g o hg _ => h.own g o hg nofun, h.info, fun c hc hlt _ => h.claims c hc hlt nofun, h.next⟩

theorem Inside.hasInfo {K : Kernel} (h : Inside u K i f) : HasInfo u K i f := by
  obtain ⟨o, ho, hi, hinfo, -⟩ := h
  exact ⟨o, ho, hi, hinfo⟩

/-- What a client keeps in its section, it keeps. -/
theorem At.leaves (h : At u i f s₀.1.nextFd x d s₀ s) (hinv : Inv u s₀) : Leaves u i (some f) x s₀ s where
  own := fun g o hg _ ho hi =>
    h.own g o (hinv.wf.fd_lt g o ho) (fun heq => hg (congrArg some heq.symm)) ho hi
  info := by
    rintro _ ⟨⟩ -
    exact h.inside.hasInfo
  claims := h.claims
  next := h.next

theorem At.start (hinv : Inv u s) (hin : Inside u s.1 i f) (x : Option Nat) :
    At u i f s.1.nextFd x 0 s s :=
  ⟨hin, hinv.enough, Nat.le_refl _, fun _ _ _ _ ho _ => ho, fun _ _ _ _ => Iff.rfl⟩

/-- At the end of the section, what has been freed does not matter. -/
theorem At.ended (h : At u i f n x d s₀ s) (hinv : Inv u s) : At u i f n x 0 s₀ s :=
  ⟨h.inside, hinv.enough, h.next, h.own, h.claims⟩

/-- The lock of the cache changes. -/
theorem lock_info (h : Inv u s) (ho : s.1.opened f = some o) (hi : o.opener = i) (hinfo : u.IsInfo s.1 o.ino)
    (l : Option FlockMode) (hwf : (s.1.setOpen f (some { o with lock := l })).Wf) :
    Move u i s (s.1.setOpen f (some { o with lock := l }), s.2) ∧
      Leaves u i (some f) none s (s.1.setOpen f (some { o with lock := l }), s.2) := by
  have hd : Usage.Differs s.1 (s.1.setOpen f (some { o with lock := l })) f (some { o with lock := l }) :=
    ⟨rfl, rfl, rfl, rfl⟩
  constructor
  · refine .of_differs h hwf hd (Nat.le_refl _) ?_ ?_
    · intro y hy
      rw [ho] at hy
      obtain rfl := Option.some.inj hy
      exact hi
    · -- `cache_info` is not pending
      rintro ⟨c, hc, hfd⟩
      obtain ⟨y, hy, -, -, -, hnot⟩ := h.claim c hc
      rw [hfd, ho] at hy
      obtain rfl := Option.some.inj hy
      exact absurd hinfo hnot
  · refine ⟨fun g y hg _ hy _ => ?_, ?_, fun _ _ _ _ => Iff.rfl, Nat.le_refl _⟩
    · rw [hd.opened_ne fun heq => hg (congrArg some heq.symm)]
      exact hy
    · rintro _ ⟨⟩ -
      exact ⟨_, Kernel.setOpen_opened_self, hi, hinfo⟩

/-- `lock_the_cache`, a body that keeps the section, and the end of the `CacheLock`. -/
theorem withCacheLock_keeps {α : Type} {fail : α} {body : Nat → Sys α} {Q : α → View → Prop} (hinv : Inv u s)
    (hinfo : ∀ f, info = some f → HasInfo u s.1 i f)
    (hnone : info = none → ∀ s', Rely u i s s' → Inv u s' → Q fail s')
    (hbody : ∀ f s1, info = some f → Inv u s1 → Leaves u i info none s s1 → Inside u s1.1 i f →
      Keeps u i op t (body f) (fun a s2 => Inside u s2.1 i f ∧
        ∀ s3, Inv u s3 → Leaves u i info none s2 s3 → Q a s3) s1) :
    Keeps u i op t (withCacheLock info fail body) Q s := by
  cases info with
  | none => exact keeps_pure (hnone rfl)
  | some f =>
      -- the lock is waited for, so the call does not fail
      have hlock : Keeps u i op t (call (.flock f .exclusive false)) (fun r s1 => r = true ∧
          Leaves u i (some f) none s s1 ∧ Inside u s1.1 i f) s := by
        refine keeps_call fun s1 hrely hinv1 => ⟨trivial, fun r w hdoes _ => ?_⟩
        obtain ⟨o, ho, hi, hino⟩ := hrely.hasInfo (hinfo f rfl)
        rcases Kernel.exec_flock ho (exec_of_mayFail rfl hdoes) with ⟨rfl, hgrants, rfl⟩ | ⟨-, -, hnb⟩
        · have hwf : (s1.1.setOpen f (some { o with lock := some .exclusive })).Wf :=
            hinv1.wf.setLock ho fun fd' y hy hne hyino =>
              Kernel.compatible_of_granted ((Kernel.grants_iff hinv1.wf).mp hgrants fd' y hy hne hyino)
          obtain ⟨hmove, hleaves⟩ := lock_info hinv1 ho hi hino _ hwf
          have hin : Inside u (s1.1.setOpen f (some { o with lock := some .exclusive })) i f :=
            ⟨_, Kernel.setOpen_opened_self, hi, hino, rfl⟩
          refine ⟨s1.2, hmove, keeps_pure fun s2 hrely2 _ => ⟨rfl, ?_, hrely2.inside hin⟩⟩
          exact ((Leaves.of_rely hrely _ _).trans hleaves).trans (.of_rely hrely2 _ _)
        · cases hnb
      refine hlock.andThen hinv ?_
      rintro _ s1 hinv1 ⟨rfl, hleaves, hin⟩
      rw [if_pos rfl]
      refine (hbody f s1 rfl hinv1 hleaves hin).andThen hinv1 ?_
      rintro a s2 - ⟨hin2, hq⟩
      refine keeps_call fun s3 hrely3 hinv3 => ⟨trivial, fun r w hdoes _ => ?_⟩
      obtain ⟨o, ho, hi, hino, -⟩ := hrely3.inside hin2
      have hexec := exec_of_mayFail rfl hdoes
      rw [Kernel.exec_unlock ho] at hexec
      obtain ⟨-, rfl⟩ := Prod.mk.inj (Option.some.inj hexec)
      have hwf : (s3.1.setOpen f (some { o with lock := none })).Wf :=
        hinv3.wf.setLock ho fun _ y _ _ _ => Kernel.compatible_none y.lock
      obtain ⟨hmove, hleaves3⟩ := lock_info hinv3 ho hi hino _ hwf
      refine ⟨s3.2, hmove, keeps_pure fun s4 hrely4 hinv4 => hq s4 hinv4 ?_⟩
      exact ((Leaves.of_rely hrely3 _ _).trans hleaves3).trans (.of_rely hrely4 _ _)

/-- An operation that returns nothing but its success. -/
theorem locked_keeps {α : Type} {fail : α} {body : Nat → Sys α} (hinv : Inv u s)
    (hinfo : ∀ f, info = some f → HasInfo u s.1 i f)
    (hbody : ∀ f s1, info = some f → Inv u s1 → At u i f s1.1.nextFd x 0 s1 s1 →
      Keeps u i op t (body f) (fun _ s2 => At u i f s1.1.nextFd x 0 s1 s2) s1) :
    Keeps u i op t (withCacheLock info fail body) (fun _ s' => Leaves u i info x s s') s := by
  refine withCacheLock_keeps hinv hinfo (fun _ s' hrely _ => .of_rely hrely _ _) ?_
  intro f s1 hf hinv1 hleaves hin
  refine (hbody f s1 hf hinv1 (.start hinv1 hin x)).mono fun _ s2 _ hat => ⟨hat.inside, fun s3 _ hleaves3 => ?_⟩
  have hat := hat.leaves hinv1
  rw [← hf] at hat
  exact ((hleaves.weaken x).trans hat).trans (hleaves3.weaken x)

/-! ## Putting items -/

/-- What may be left when a new file is closed. -/
def Closing (u : Usage) (i f n : Nat) (s₀ : View) (fd : Nat) (s : View) : Prop :=
  At u i f n none 0 s₀ s ∧ (∃ o, Held i f n fd o s) ∧ Loose u fd s

theorem Closing.rely (h : Closing u i f n s₀ fd s) (hinv : Inv u s) (hrely : Rely u i s s') :
    Closing u i f n s₀ fd s' := by
  obtain ⟨hat, ⟨o, hheld⟩, hloose⟩ := h
  have hk : Kept u i f s s' := .of_rely hat.inside hrely
  exact ⟨hat.kept hk, ⟨o, hheld.kept hk⟩, hloose.kept hinv hheld hk⟩

/-- A claim on a file that counts for nothing. -/
theorem Claimed.closing (h : Claimed u i f n none 0 s₀ fd o s) (hinv : Inv u s)
    (hless : Weightless u s.1 o.ino) : Closing u i f n s₀ fd s :=
  ⟨h.at_, ⟨o, h.held⟩, h.loose hinv hless⟩

/-- The size of a new file is recorded. -/
theorem addNew_keeps (hop : Adds op) (hinv : Inv u s) (h : Claimed u i f n none 0 s₀ fd o s) :
    Keeps u i op t (FileCache.addFileSize f fd) (fun _ s' => Closing u i f n s₀ fd s') s := by
  refine (settle_keeps hop hinv h.at_.inside h.held.opened h.held.opener h.held.ne h.claim).mono ?_
  intro _ s1 hinv1 hupdated
  have ho := hupdated.own fd o h.held.ne h.held.opened h.held.opener
  refine ⟨h.at_.updated hupdated hinv1 ?_, ⟨o, ho, h.held.opener, h.held.new, h.held.ne⟩, ?_⟩
  · rintro _ ⟨⟩
    exact .inl h.held.new
  · intro c hc hfd
    have hi := hinv1.client_eq ho h.held.opener hc hfd
    exact absurd (congrArg some hfd.symm) ((hupdated.claims c hi).mp hc).2

/-- A new descriptor is closed in the end. -/
theorem newFile_keeps {α : Type} {body : Sys α} (hinv : Inv u s)
    (hbody : Keeps u i op t body (fun _ s1 => Closing u i f n s₀ fd s1) s) :
    Keeps u i op t (withItem fd body) (fun _ s' => At u i f n none 0 s₀ s') s := by
  have hclosing : Keeps u i op t body (fun _ s1 => At u i f n none 0 s₀ s1 ∧ (∃ o, Held i f n fd o s1) ∧
      Loose u fd s1 ∧ True) s :=
    hbody.mono fun _ s1 _ h => ⟨h.1, h.2.1, h.2.2, trivial⟩
  exact (withItem_keeps hinv hclosing).mono fun _ s1 _ hpost => hpost.1

/-- A new item is locked, and closed in the end. -/
theorem newItem_keeps {body : Sys Bool} (hinv : Inv u s) (h : Made u i f n none 0 s₀ fd o s)
    (hbody : ∀ o s1, Inv u s1 → Claimed u i f n none 0 s₀ fd o s1 → Weightless u s1.1 o.ino →
      Keeps u i op t body (fun _ s2 => Closing u i f n s₀ fd s2) s1) :
    Keeps u i op t (withItem fd do
      let locked ← lockTheItem fd .exclusive false
      if locked then body
      else pure false) (fun _ s' => At u i f n none 0 s₀ s') s := by
  refine newFile_keeps hinv ((lockNew_keeps h).andThen hinv ?_)
  rintro _ s1 hinv1 ⟨rfl, -, o1, -, -, hclaimed, hless⟩
  rw [if_pos rfl]
  exact hbody o1 s1 hinv1 hclaimed hless

theorem putData_keeps {data : List UInt8} (hop : Adds op) (hinv : Inv u s)
    (hinfo : ∀ f, fc.cacheInfoFd = some f → HasInfo u s.1 i f) :
    Keeps u i op t (fc.putData key data) (fun _ s' => Leaves u i fc.cacheInfoFd none s s') s := by
  refine locked_keeps hinv hinfo fun f s1 _ hinv1 hat => ?_
  refine (createKey_keeps hat).andThen hinv1 ?_
  intro created s2 hinv2 hcreated
  cases created with
  | none => exact keeps_pure fun s3 hrely _ => At.rely hcreated hrely
  | some fd =>
      obtain ⟨o, -, hmade⟩ := hcreated
      refine newItem_keeps hinv2 hmade fun o1 s3 hinv3 hclaimed _ => ?_
      refine (writeNew_keeps hop.records hclaimed).andThen hinv3 ?_
      rintro written s4 hinv4 ⟨o2, hclaimed4, hor⟩
      split
      · exact addNew_keeps hop hinv4 hclaimed4
      next hne =>
        have hclosing := hclaimed4.closing hinv4 (hor.resolve_left hne)
        exact keeps_pure fun s5 hrely _ => hclosing.rely hinv4 hrely

theorem put_keeps {fileName : Text} (hop : Adds op) (hinv : Inv u s)
    (hinfo : ∀ f, fc.cacheInfoFd = some f → HasInfo u s.1 i f) :
    Keeps u i op t (fc.put key fileName) (fun _ s' => Leaves u i fc.cacheInfoFd none s s') s := by
  refine locked_keeps hinv hinfo fun f s1 _ hinv1 hat => ?_
  refine (createKey_keeps hat).andThen hinv1 ?_
  intro created s2 hinv2 hcreated
  cases created with
  | none => exact keeps_pure fun s3 hrely _ => At.rely hcreated hrely
  | some fd =>
      obtain ⟨o, -, hmade⟩ := hcreated
      refine newItem_keeps hinv2 hmade fun o1 s3 hinv3 hclaimed hless => ?_
      refine (ask_keeps (c := .source fileName) rfl trivial hclaimed.at_.inside).andThen hinv3 ?_
      rintro source s4 hinv4 ⟨s5, -, hk, -, -, hk'⟩
      have hk4 := hk.trans hk'
      have hclaimed4 := hclaimed.kept hk4
      have hless4 := hless.kept hk4 (hk4.claimed _ hclaimed.claim rfl)
      cases source with
      | none =>
          have hclosing := hclaimed4.closing hinv4 hless4
          exact keeps_pure fun s6 hrely _ => hclosing.rely hinv4 hrely
      | some bytes =>
          refine (copyPieces_keeps hop.records _ hinv4 hclaimed4).andThen hinv4 ?_
          rintro copied s6 hinv6 ⟨o2, hclaimed6, hor⟩
          split
          · exact addNew_keeps hop hinv6 hclaimed6
          next hne =>
            have hclosing := hclaimed6.closing hinv6 (hor.resolve_left hne)
            exact keeps_pure fun s7 hrely _ => hclosing.rely hinv6 hrely

/-! ## Items that a client has -/

/-- A `PutItem` of the client: its file is pending. -/
def HasPutItem (i fd : Nat) (s : View) : Prop :=
  ∃ o, s.1.opened fd = some o ∧ o.opener = i ∧ ⟨i, fd, o.ino⟩ ∈ s.2.pending

/-- An `Item` of the client. -/
def HasReader (i fd : Nat) (s : View) : Prop :=
  ∃ o, s.1.opened fd = some o ∧ o.opener = i ∧ o.lock ≠ some .exclusive

theorem HasPutItem.leaves (h : HasPutItem i fd s) (hinv : Inv u s) (hleaves : Leaves u i info x s s')
    (hinfo : info ≠ some fd) (hx : x ≠ some fd) : HasPutItem i fd s' := by
  obtain ⟨o, ho, hi, hclaim⟩ := h
  exact ⟨o, hleaves.own fd o hinfo hx ho hi, hi, (hleaves.claims _ rfl (hinv.wf.fd_lt fd o ho) hx).mpr hclaim⟩

theorem HasReader.leaves (h : HasReader i fd s) (hleaves : Leaves u i info x s s') (hinfo : info ≠ some fd)
    (hx : x ≠ some fd) : HasReader i fd s' := by
  obtain ⟨o, ho, hi, hlock⟩ := h
  exact ⟨o, hleaves.own fd o hinfo hx ho hi, hi, hlock⟩

/-- The descriptor that an operation returns is new. -/
def Gains (info : Option Nat) (has : Nat → View → Prop) (s : View) (r : Option Nat) (s' : View) : Prop :=
  ∀ fd, r = some fd → s.1.nextFd ≤ fd ∧ info ≠ some fd ∧ has fd s'

theorem putItem_keeps (hinv : Inv u s) (hinfo : ∀ f, fc.cacheInfoFd = some f → HasInfo u s.1 i f) :
    Keeps u i op t (fc.putItem key) (fun r s' => Leaves u i fc.cacheInfoFd none s s' ∧
      Gains fc.cacheInfoFd (HasPutItem i) s r.2 s') s := by
  refine withCacheLock_keeps hinv hinfo (fun _ s' hrely _ => ⟨.of_rely hrely _ _, nofun⟩) ?_
  intro f s1 hf hinv1 hleaves hin
  rw [hf] at hleaves ⊢
  refine (createKey_keeps (At.start hinv1 hin none)).andThen hinv1 ?_
  intro created s2 hinv2 hcreated
  cases created with
  | none =>
      refine keeps_pure fun s3 hrely _ => ?_
      have hat : At u i f s1.1.nextFd none 0 s1 s3 := At.rely hcreated hrely
      exact ⟨hat.inside, fun s4 _ hleaves4 => ⟨(hleaves.trans (hat.leaves hinv1)).trans hleaves4, nofun⟩⟩
  | some fd =>
      obtain ⟨o, -, hmade⟩ := hcreated
      refine (lockNew_keeps hmade).andThen hinv2 ?_
      rintro locked s3 hinv3 ⟨-, -, o1, -, -, hclaimed, -⟩
      refine keeps_pure fun s4 hrely hinv4 => ?_
      have hclaimed4 := hclaimed.kept (.of_rely hclaimed.at_.inside hrely)
      have hat := hclaimed4.at_
      refine ⟨hat.inside, fun s5 _ hleaves5 => ⟨(hleaves.trans (hat.leaves hinv1)).trans hleaves5, ?_⟩⟩
      rintro _ ⟨⟩
      have hne : some f ≠ some fd := fun heq => hclaimed4.held.ne (Option.some.inj heq).symm
      refine ⟨Nat.le_trans hleaves.next hclaimed4.held.new, hne, ?_⟩
      refine HasPutItem.leaves ⟨o1, hclaimed4.held.opened, hclaimed4.held.opener, hclaimed4.claim⟩ hinv4 hleaves5
        hne nofun

theorem get_keeps (hinv : Inv u s) (hinfo : ∀ f, fc.cacheInfoFd = some f → HasInfo u s.1 i f) :
    Keeps u i op t (fc.get key) (fun r s' => Leaves u i fc.cacheInfoFd none s s' ∧
      Gains fc.cacheInfoFd (HasReader i) s r.2 s') s := by
  refine withCacheLock_keeps hinv hinfo (fun _ s' hrely _ => ⟨.of_rely hrely _ _, nofun⟩) ?_
  intro f s1 hf hinv1 hleaves hin
  rw [hf] at hleaves ⊢
  have hstart := At.start hinv1 hin none
  refine (openRead_keeps hstart).andThen hinv1 ?_
  rintro opened s2 hinv2 ⟨hk, hopened⟩
  cases opened with
  | none =>
      refine keeps_pure fun s3 hrely _ => ?_
      have hat := (hstart.kept hk).rely hrely
      exact ⟨hat.inside, fun s4 _ hleaves4 => ⟨(hleaves.trans (hat.leaves hinv1)).trans hleaves4, nofun⟩⟩
  | some fd =>
      obtain ⟨o, hlock, ho⟩ := hopened fd rfl
      refine (lockOld_keeps (hstart.kept hk) ho hinv2).andThen hinv2 ?_
      rintro locked s3 hinv3 ⟨hat, -, o1, -, hlock1, ho1⟩
      refine keeps_pure fun s4 hrely _ => ?_
      have hk4 : Kept u i f s3 s4 := .of_rely hat.inside hrely
      have ho4 := ho1.kept hk4
      have hshared : o1.lock ≠ some .exclusive := by
        rw [hlock1, hlock]
        cases locked <;> nofun
      refine ⟨hk4.inside, fun s5 _ hleaves5 =>
        ⟨(hleaves.trans ((hat.kept hk4).leaves hinv1)).trans hleaves5, ?_⟩⟩
      rintro _ ⟨⟩
      have hne : some f ≠ some fd := fun heq => ho4.ne (Option.some.inj heq).symm
      refine ⟨Nat.le_trans hleaves.next ho4.new, hne, ?_⟩
      exact HasReader.leaves ⟨o1, ho4.opened, ho4.opener, hshared⟩ hleaves5 hne nofun

/-! ## Destroying a `PutItem` -/

/-- Closing a descriptor of the client's own. -/
theorem closeOwn_keeps (ho : s.1.opened fd = some o) (hi : o.opener = i) (hinfo : info ≠ some fd)
    (hloose : ∀ s1 r w, Rely u i s s1 → Inv u s1 →
      sound u.home op t (.close fd) s1.1 r w = true → Loose u fd s1) :
    Keeps u i op t (call (.close fd)) (fun _ s' => Leaves u i info (some fd) s s') s := by
  refine keeps_call fun s1 hrely hinv1 => ⟨trivial, fun r w hdoes hsound => ?_⟩
  have ho1 := hrely.own fd o ho hi
  have hloose1 := hloose s1 r w hrely hinv1 hsound
  obtain ⟨-, rfl⟩ := Prod.mk.inj (Option.some.inj (exec_of_mayFail rfl hdoes))
  refine ⟨without fd s1.2, .close hinv1 ho1 hi hloose1, keeps_pure fun s2 hrely2 _ => ?_⟩
  have hclosed : Leaves u i info (some fd) s1 (s1.1.setOpen fd none, without fd s1.2) := by
    refine ⟨fun g y _ hx hy _ => ?_, ?_, fun c _ _ hx => ?_, Nat.le_refl _⟩
    · rw [Kernel.setOpen_opened_of_ne fun heq => hx (congrArg some heq.symm)]
      exact hy
    · rintro g hg ⟨y, hy, hyi, hino⟩
      have hne : g ≠ fd := by
        rintro rfl
        exact hinfo hg
      exact ⟨y, by rwa [Kernel.setOpen_opened_of_ne hne], hyi, hino⟩
    · exact mem_without.trans (and_iff_left fun heq => hx (congrArg some heq.symm))
  exact ((Leaves.of_rely hrely _ _).trans hclosed).trans (.of_rely hrely2 _ _)

/-- `~PutItem` in the section. -/
theorem destroy_keeps (hop : Adds op) (hinv : Inv u s) (h : At u i f s.1.nextFd (some fd) 0 s s)
    (ho : s.1.opened fd = some o) (hi : o.opener = i) (hne : fd ≠ f)
    (hclaim : ⟨i, fd, o.ino⟩ ∈ s.2.pending) :
    Keeps u i op t (do
      let recorded ← getCacheInfoSize f
      let size ← getFileSize fd
      let _ ← updateCacheInfoSize f ((recorded + size) % 2 ^ 64)
      pure ()) (fun _ s' => At u i f s.1.nextFd (some fd) 0 s s' ∧
        ∀ c ∈ s'.2.pending, c.client = i → c.fd ≠ fd) s := by
  have hsame : (do
      let recorded ← getCacheInfoSize f
      let size ← getFileSize fd
      let _ ← updateCacheInfoSize f ((recorded + size) % 2 ^ 64)
      pure () : Sys Unit) = FileCache.addFileSize f fd >>= fun _ => pure () := by
    rw [FileCache.addFileSize]
    simp only [bind_assoc]
  rw [hsame]
  refine (settle_keeps hop hinv h.inside ho hi hne hclaim).andThen hinv ?_
  intro _ s1 hinv1 hupdated
  refine keeps_pure fun s2 hrely _ => ?_
  have hat := h.updated hupdated hinv1 fun g hg => .inr hg
  refine ⟨hat.rely hrely, fun c hc hci hfd => ?_⟩
  exact ((hupdated.claims c hci).mp ((hrely.claims c hci).mp hc)).2 (congrArg some hfd.symm)

/-- A `PutItem` is destroyed, whichever harmless failures there are. -/
theorem destroyPutItem_keeps (hop : op = .destroyPutItem fd) (hinv : Inv u s)
    (hinfo : ∀ f, t.cache.cacheInfoFd = some f → HasInfo u s.1 i f) (hne : t.cache.cacheInfoFd ≠ some fd)
    (h : HasPutItem i fd s) :
    Keeps u i op t (t.cache.destroyPutItem (some fd))
      (fun _ s' => Leaves u i t.cache.cacheInfoFd (some fd) s s') s := by
  obtain ⟨o, ho, hi, hclaim⟩ := h
  have hadds : Adds op := by
    rw [hop]
    exact trivial
  have hsettle : Keeps u i op t (withCacheLock t.cache.cacheInfoFd () fun f => do
      let recorded ← getCacheInfoSize f
      let size ← getFileSize fd
      let _ ← updateCacheInfoSize f ((recorded + size) % 2 ^ 64)
      pure ()) (fun _ s' => Leaves u i t.cache.cacheInfoFd (some fd) s s' ∧ s'.1.opened fd = some o ∧
        (t.cache.cacheInfoFd ≠ none → ∀ c ∈ s'.2.pending, c.client = i → c.fd ≠ fd)) s := by
    refine withCacheLock_keeps hinv hinfo ?_ ?_
    · exact fun hnone s1 hrely _ => ⟨.of_rely hrely _ _, hrely.own fd o ho hi, fun hsome => absurd hnone hsome⟩
    · intro f s1 hf hinv1 hleaves hin
      rw [hf] at hleaves hne ⊢
      have hfd : fd ≠ f := fun heq => hne (congrArg some heq.symm)
      have ho1 := hleaves.own fd o hne nofun ho hi
      have hclaim1 := (hleaves.claims ⟨i, fd, o.ino⟩ rfl (hinv.wf.fd_lt fd o ho) nofun).mpr hclaim
      refine (destroy_keeps hadds hinv1 (.start hinv1 hin _) ho1 hi hfd hclaim1).mono ?_
      rintro _ s2 hinv2 ⟨hat, hnone⟩
      have hlt := hinv1.wf.fd_lt fd o ho1
      have ho2 := hat.own fd o hlt hfd ho1 hi
      refine ⟨hat.inside, fun s3 _ hleaves3 => ⟨?_, hleaves3.own fd o hne nofun ho2 hi, fun _ c hc hci hcfd => ?_⟩⟩
      · exact ((hleaves.weaken _).trans (hat.leaves hinv1)).trans (hleaves3.weaken _)
      · have hclt : c.fd < s2.1.nextFd := by
          rw [hcfd]
          exact Nat.lt_of_lt_of_le hlt hat.next
        exact hnone c ((hleaves3.claims c hci hclt nofun).mp hc) hci hcfd
  refine hsettle.andThen hinv ?_
  rintro _ s1 hinv1 ⟨hleaves, ho1, hnone⟩
  refine (closeOwn_keeps ho1 hi hne fun s2 r w hrely hinv2 hsound c hc hfd => ?_).andThen hinv1 ?_
  · have ho2 := hrely.own fd o ho1 hi
    cases hcache : t.cache.cacheInfoFd with
    | none =>
        -- nobody adds its size
        subst hop
        have hsound : (t.cache.cacheInfoFd.isSome || onNothing u.home s2.1 fd) = true := hsound
        rw [hcache, Option.isSome_none, Bool.false_or] at hsound
        obtain ⟨y, hy, -, hino, -⟩ := hinv2.claim c hc
        rw [hfd, ho2] at hy
        obtain rfl := Option.some.inj hy
        rw [← hino]
        exact weightless_of_onNothing ho2 hsound
    | some f =>
        have hci := hinv2.client_eq ho2 hi hc hfd
        refine absurd hfd (hnone ?_ c ((hrely.claims c hci).mp hc) hci)
        rw [hcache]
        exact Option.some_ne_none f
  · intro r s2 _ hleaves2
    exact keeps_pure fun s3 hrely _ => (hleaves.trans hleaves2).trans (.of_rely hrely _ _)

/-- `~PutItem` without a descriptor. -/
theorem destroyEmptyPutItem_keeps (hop : Adds op) (hinv : Inv u s)
    (hinfo : ∀ f, fc.cacheInfoFd = some f → HasInfo u s.1 i f) :
    Keeps u i op t (fc.destroyPutItem none) (fun _ s' => Leaves u i fc.cacheInfoFd none s s') s := by
  have hsettle : Keeps u i op t (withCacheLock fc.cacheInfoFd () fun f => do
      let recorded ← getCacheInfoSize f
      let size ← pure 0
      let _ ← updateCacheInfoSize f ((recorded + size) % 2 ^ 64)
      pure ()) (fun _ s' => Leaves u i fc.cacheInfoFd none s s') s := by
    refine locked_keeps hinv hinfo fun f s1 _ hinv1 hat => ?_
    refine (getCacheInfoSize_keeps hat.inside).andThen hinv1 ?_
    rintro recorded s2 hinv2 ⟨hk, hrecorded⟩
    have hrecorded := hrecorded.resolve_right fun hforgives => hop.not_forgives hforgives.2
    have hlt : u.recorded s2 < 2 ^ 64 := recordedSize_lt u.home s2.1
    have hsame : (recorded + 0) % 2 ^ 64 = u.recorded s2 := by omega
    show Keeps u i op t (updateCacheInfoSize f ((recorded + 0) % 2 ^ 64) >>= fun _ => pure ()) _ s2
    rw [hsame]
    refine (updateCacheInfoSize_keeps (x := none) hop.records hk.inside hlt nofun ?_).andThen hinv2 ?_
    · intro s3 hinv3 hk3
      rw [← hk3.still.recorded]
      exact hinv3.enough
    · intro _ s3 hinv3 hupdated
      exact keeps_pure fun s4 hrely _ => ((hat.kept hk).updated hupdated hinv3 nofun).rely hrely
  refine hsettle.andThen hinv ?_
  intro _ s1 _ hleaves
  exact keeps_pure fun s2 hrely _ => hleaves.trans (.of_rely hrely _ _)

/-! ## Removing items -/

theorem del_keeps {key' : Text} (hop : op = .del key') (hinv : Inv u s)
    (hinfo : ∀ f, fc.cacheInfoFd = some f → HasInfo u s.1 i f) :
    Keeps u i op t (fc.del key) (fun _ s' => Leaves u i fc.cacheInfoFd none s s') s := by
  have hrecords : Records op := by
    rw [hop]
    exact trivial
  have hforgives : ¬ Forgives op t := by
    rintro ⟨h, -⟩
    rw [hop] at h
    cases h
  refine locked_keeps hinv hinfo fun f s1 _ hinv1 hat => ?_
  refine (openWrite_keeps hat).andThen hinv1 ?_
  rintro opened s2 hinv2 ⟨hk, hopened⟩
  cases opened with
  | none => exact keeps_pure fun s3 hrely _ => (hat.kept hk).rely hrely
  | some fd =>
      obtain ⟨o, hnolock, ho, hplaced⟩ := hopened fd rfl
      -- whatever happens, the item can be closed
      have hstop : ∀ {o s3}, At u i f s1.1.nextFd none 0 s1 s3 → Opened i f s1.1.nextFd fd o s3 →
          ∀ s4, Rely u i s3 s4 → Inv u s4 → Closing u i f s1.1.nextFd s1 fd s4 := by
        intro o s3 hat3 ho3 s4 hrely _
        have hk4 : Kept u i f s3 s4 := .of_rely hat3.inside hrely
        exact ⟨hat3.kept hk4, ⟨o, (ho3.kept hk4).toHeld⟩, (ho3.kept hk4).loose⟩
      refine newFile_keeps hinv2 ((lockOld_keeps (hat.kept hk) ho hinv2).andThen hinv2 ?_)
      rintro locked s3 hinv3 ⟨hat3, hstill3, o3, hino3, hlock3, ho3⟩
      cases locked with
      | false => exact keeps_pure (hstop hat3 ho3)
      | true =>
          refine (weigh_keeps hop hat3.inside ho3).andThen hinv3 ?_
          rintro size s4 hinv4 ⟨hk4, hweighs⟩
          have ho4 := ho3.kept hk4
          have hplaced4 : Placed (fc.keyFileName key) o3.ino s4 := by
            rw [hino3]
            exact (hstill3.trans hk4.still).files.mem_iff.mpr hplaced
          have hremovable := ho4.removable hinv4 hk4.inside hlock3 hplaced4 hweighs
          refine (remove_keeps (hat3.kept hk4) hremovable).andThen hinv4 ?_
          rintro removed s5 hinv5 ⟨hat5, -, hkeep5⟩
          have ho5 := hkeep5 fd o3 ho4
          cases removed with
          | false => exact keeps_pure (hstop hat5 ho5)
          | true =>
              refine (getCacheInfoSize_keeps hat5.inside).andThen hinv5 ?_
              rintro recorded s6 hinv6 ⟨hk6, hrecorded⟩
              have hrecorded := hrecorded.resolve_right fun h => hforgives h.2
              have hat6 : At u i f s1.1.nextFd none size s1 s6 := by
                have hat6 := hat5.kept hk6
                rwa [if_pos rfl, Nat.zero_add] at hat6
              refine (subtract_keeps hrecords hat6 hinv6 hrecorded).mono ?_
              intro _ s7 hinv7 hupdated
              have ho7 := (ho5.kept hk6).updated hupdated hinv7
              exact ⟨hat6.updated hupdated hinv7 nofun, ⟨o3, ho7.toHeld⟩, ho7.loose⟩

/-- What `files_in_cache` lists. -/
theorem filesInCache_keeps (hinv : Inv u s) (hin : Inside u s.1 i f) :
    Keeps u i op t fc.filesInCache (fun r s' => Kept u i f s s' ∧ ∀ files, r = some files →
      ∃ names : List Text, files = names.map fc.keyFileName ∧
        ∀ m ∈ names, IsFileName m ∧ m ≠ cacheInfoName) s := by
  refine (ask_keeps (c := .readdir fc.cacheDir) rfl trivial hin).andThen hinv ?_
  rintro r s1 - ⟨s2, hinv2, hk2, hdoes, -, hk1⟩
  refine keeps_pure fun s3 hrely _ => ⟨(hk2.trans hk1).trans (.of_rely hk1.inside hrely), fun files hfiles => ?_⟩
  obtain ⟨all, hall, rfl⟩ := Option.map_eq_some_iff.mp hfiles
  obtain ⟨rfl, -⟩ := Prod.mk.inj (Option.some.inj (exec_of_mayFail rfl hdoes))
  obtain ⟨loc, -, hlist⟩ := Option.bind_eq_some_iff.mp hall
  split at hlist
  · obtain rfl := Option.some.inj hlist
    refine ⟨_, rfl, fun m hm => ?_⟩
    obtain ⟨hmem, hne⟩ := List.mem_filter.mp hm
    obtain ⟨hdot, hdots, hinfo⟩ := of_decide_eq_true hne
    obtain ⟨ino, hentry⟩ := Kernel.mem_listing.mp
      (((List.mem_cons.mp hmem).resolve_left hdot |> List.mem_cons.mp).resolve_left hdots)
    exact ⟨hinv2.wf.names _ hentry m (by simp), hinfo⟩
  · cases hlist

/-- What is listed may be removed. -/
theorem removable_name {m : Text} {size : Nat} (hdir : fc.cacheDir = u.dir) (hm : IsFileName m)
    (hinfo : m ≠ cacheInfoName) (hweighs : size = 0 ∨ ∀ ino, (u.home ++ [m], ino) ∈ s.1.files →
      size ≤ (s.1.data ino).length ∧ ∀ c ∈ s.2.pending, c.ino ≠ ino) :
    Removable u (fc.keyFileName m) size s where
  notInfo := by
    rw [Usage.resolve_keyFileName hdir hm]
    exact fun heq => hinfo (List.singleton_inj.mp (List.append_cancel_left heq)).symm
  weighs := by
    show size = 0 ∨ IsItem u.home (resolve (cStr (fc.keyFileName m))) ∧
      ∀ ino, (resolve (cStr (fc.keyFileName m)), ino) ∈ s.1.files → _
    rw [Usage.resolve_keyFileName hdir hm]
    exact hweighs.imp_right fun hall => ⟨Usage.isItem_name hinfo, hall⟩

/-- The loop of `clear` stays in the section, whichever removal fails. -/
theorem removeFiles_keeps {names : List Text} (hdir : fc.cacheDir = u.dir)
    (hnames : ∀ m ∈ names, IsFileName m ∧ m ≠ cacheInfoName) (hinv : Inv u s) (h : At u i f n none 0 s₀ s) :
    Keeps u i op t (FileCache.removeFiles (names.map fc.keyFileName))
      (fun _ s' => At u i f n none 0 s₀ s') s := by
  induction names generalizing s with
  | nil => exact keeps_pure fun s1 hrely _ => h.rely hrely
  | cons m names ih =>
      obtain ⟨hm, hinfo⟩ := hnames m List.mem_cons_self
      refine (remove_keeps h (removable_name hdir hm hinfo (.inl rfl))).andThen hinv ?_
      rintro removed s1 hinv1 ⟨hat, -, -⟩
      have hat : At u i f n none 0 s₀ s1 := by
        rwa [Nat.add_zero, ite_self] at hat
      split
      · exact ih (fun m' hm' => hnames m' (List.mem_cons_of_mem m hm')) hinv1 hat
      · exact keeps_pure fun s2 hrely _ => hat.rely hrely

theorem clear_keeps (hinv : Inv u s) (hinfo : ∀ f, fc.cacheInfoFd = some f → HasInfo u s.1 i f)
    (hdir : ∀ f, fc.cacheInfoFd = some f → fc.cacheDir = u.dir) :
    Keeps u i op t fc.clear (fun _ s' => Leaves u i fc.cacheInfoFd none s s') s := by
  refine locked_keeps hinv hinfo fun f s1 hf hinv1 hat => ?_
  refine (filesInCache_keeps hinv1 hat.inside).andThen hinv1 ?_
  rintro files s2 hinv2 ⟨hk, hfiles⟩
  cases files with
  | none => exact keeps_pure fun s3 hrely _ => (hat.kept hk).rely hrely
  | some files =>
      obtain ⟨names, rfl, hnames⟩ := hfiles files rfl
      exact removeFiles_keeps (hdir f hf) hnames hinv2 (hat.kept hk)

/-! ## `purge` -/

/-- A file that has been measured and is still there is not smaller. -/
def Measured (u : Usage) (fc : FileCache) (item : FileCache.ItemInfo) (s : View) : Prop :=
  ∃ m, IsFileName m ∧ m ≠ cacheInfoName ∧ item.name = fc.keyFileName m ∧
    ∀ ino, (u.home ++ [m], ino) ∈ s.1.files → item.size ≤ (s.1.data ino).length

theorem Measured.trimmed {item : FileCache.ItemInfo} (h : Measured u fc item s) (ht : Trimmed u s s') :
    Measured u fc item s' := by
  obtain ⟨m, hm, hinfo, hname, hsize⟩ := h
  refine ⟨m, hm, hinfo, hname, fun ino hmem => ?_⟩
  obtain ⟨hmem, hle⟩ := ht.files _ hmem
  exact Nat.le_trans (hsize ino hmem) hle

/-- What the loop of `purge` has measured are sizes of items. -/
theorem statFiles_keeps {items : List FileCache.ItemInfo} {names : List Text} (hdir : fc.cacheDir = u.dir)
    (hnames : ∀ m ∈ names, IsFileName m ∧ m ≠ cacheInfoName) (hinv : Inv u s) (hin : Inside u s.1 i f)
    (hitems : ∀ item ∈ items, Measured u fc item s) :
    Keeps u i op t (FileCache.statFiles (names.map fc.keyFileName) items) (fun r s' => Kept u i f s s' ∧
      ∀ items', r = some items' → ∀ item ∈ items', Measured u fc item s') s := by
  induction names generalizing items s with
  | nil =>
      refine keeps_pure fun s1 hrely _ => ?_
      have hk : Kept u i f s s1 := .of_rely hin hrely
      refine ⟨hk, ?_⟩
      rintro _ ⟨⟩ item hitem
      exact (hitems item hitem).trimmed hk.still.trimmed
  | cons m names ih =>
      obtain ⟨hm, hinfo⟩ := hnames m List.mem_cons_self
      refine (ask_keeps (c := .stat (fc.keyFileName m)) rfl trivial hin).andThen hinv ?_
      rintro r s1 hinv1 ⟨s2, hinv2, hk2, hdoes, -, hk1⟩
      have hk := hk2.trans hk1
      cases r with
      | none => exact keeps_pure fun s3 hrely _ => ⟨hk.trans (.of_rely hk.inside hrely), nofun⟩
      | some sb =>
          -- `stat` can fail, but what it answers is right
          have hstat : ∃ ino, s2.1.inode (fc.keyFileName m) = some ino ∧ sb.1 = (s2.1.data ino).length := by
            rcases Kernel.does_iff.mp hdoes with h | ⟨-, _ | _, h⟩
            · obtain ⟨ino, hino, hsb⟩ := Option.map_eq_some_iff.mp (Prod.mk.inj (Option.some.inj h)).1
              exact ⟨ino, hino, congrArg Prod.fst hsb.symm⟩
            · cases h
            · cases h
          obtain ⟨ino, hino, hsize⟩ := hstat
          have hmeasured : Measured u fc ⟨fc.keyFileName m, sb.1, sb.2.toUInt64⟩ s2 := by
            refine ⟨m, hm, hinfo, rfl, fun ino' hmem => ?_⟩
            obtain ⟨loc, hloc, hlook⟩ := Option.bind_eq_some_iff.mp hino
            obtain rfl := Usage.locate_keyFileName hdir hm hloc
            rw [hinv2.wf.lookup_entries.mpr (Kernel.mem_entries_of_file hmem)] at hlook
            obtain rfl := Option.some.inj hlook
            exact Nat.le_of_eq hsize
          have hitems1 : ∀ item ∈ FileCache.insertItem ⟨fc.keyFileName m, sb.1, sb.2.toUInt64⟩ items,
              Measured u fc item s1 := by
            intro item hitem
            rcases List.mem_cons.mp ((Usage.insertItem_perm _ _).mem_iff.mp hitem) with rfl | hitem
            · exact hmeasured.trimmed hk1.still.trimmed
            · exact (hitems item hitem).trimmed hk.still.trimmed
          refine (ih (fun m' hm' => hnames m' (List.mem_cons_of_mem m hm')) hinv1 hk.inside hitems1).mono ?_
          exact fun _ s3 _ hpost => ⟨hk.trans hpost.1, hpost.2⟩

/-- The loop that removes files: what it counts has been freed. -/
theorem removeItems_keeps {purgeSize removed : Nat} {items : List FileCache.ItemInfo}
    (hdir : fc.cacheDir = u.dir) (hinv : Inv u s) (h : At u i f n none removed s₀ s)
    (hitems : ∀ item ∈ items, Measured u fc item s) :
    Keeps u i op t (FileCache.removeItems purgeSize items removed) (fun r s' =>
      u.recorded s' = u.recorded s ∧ ∃ d, At u i f n none d s₀ s' ∧ ∀ v, r = some v → v = d) s := by
  -- the loop stops
  have hstop : ∀ {z s1 removed'} (r : Option Nat), u.recorded s1 = u.recorded z →
      At u i f n none removed' s₀ s1 → (∀ v, r = some v → v = removed') → Keeps u i op t (pure r)
        (fun r s' => u.recorded s' = u.recorded z ∧ ∃ d, At u i f n none d s₀ s' ∧ ∀ v, r = some v → v = d)
        s1 := by
    intro z s1 removed' r hrecorded hat hr
    refine keeps_pure fun s2 hrely _ => ⟨?_, removed', hat.rely hrely, hr⟩
    rw [(hrely.still f hat.inside).recorded, hrecorded]
  induction items generalizing s removed with
  | nil => exact hstop _ rfl h fun v hv => (Option.some.inj hv).symm
  | cons item rest ih =>
      rw [FileCache.removeItems]
      split
      · exact hstop _ rfl h fun v hv => (Option.some.inj hv).symm
      · refine (openWrite_keeps h).andThen hinv ?_
        rintro opened s1 hinv1 ⟨hk, hopened⟩
        cases opened with
        | none =>
            exact hstop none hk.still.recorded (h.kept hk) fun v hv => absurd hv.symm (Option.some_ne_none v)
        | some fd =>
            obtain ⟨o, -, ho, hplaced⟩ := hopened fd rfl
            have hbody : Keeps u i op t (do
                let locked ← lockTheItem fd .exclusive true
                if locked then
                  let gone ← call (.remove item.name)
                  pure (if gone then (removed + item.size) % 2 ^ 64 else removed)
                else pure removed) (fun a s2 => At u i f n none a s₀ s2 ∧ (∃ o, Held i f n fd o s2) ∧
                  Loose u fd s2 ∧ Trimmed u s s2) s1 := by
              refine (lockOld_keeps (h.kept hk) ho hinv1).andThen hinv1 ?_
              rintro locked s2 hinv2 ⟨hat2, hstill2, o2, hino2, hlock2, ho2⟩
              have htrimmed2 := (hk.still.trans hstill2).trimmed
              cases locked with
              | false =>
                  refine keeps_pure fun s3 hrely _ => ?_
                  have hk3 : Kept u i f s2 s3 := .of_rely hat2.inside hrely
                  exact ⟨hat2.kept hk3, ⟨o2, (ho2.kept hk3).toHeld⟩, (ho2.kept hk3).loose,
                    htrimmed2.trans hk3.still.trimmed⟩
              | true =>
                  obtain ⟨m, hm, hinfo, hname, hsize⟩ := (hitems item List.mem_cons_self).trimmed htrimmed2
                  -- what is there is what the client has locked
                  have hremovable : Removable u item.name item.size s2 := by
                    rw [hname]
                    refine removable_name hdir hm hinfo (.inr fun ino hmem => ⟨hsize ino hmem, ?_⟩)
                    have hplaced2 := hstill2.files.mem_iff.mpr hplaced
                    rw [hname, Usage.resolve_keyFileName hdir hm, ← hino2] at hplaced2
                    obtain rfl := hinv2.wf.ino_eq hmem hplaced2
                    exact hinv2.free ho2.opened hlock2 ho2.unclaimed
                  refine (remove_keeps hat2 hremovable).andThen hinv2 ?_
                  rintro gone s3 hinv3 ⟨hat3, htrimmed3, hkeep3⟩
                  have ho3 := hkeep3 fd o2 ho2
                  have hfreed : (if gone then (removed + item.size) % 2 ^ 64 else removed) =
                      if gone then removed + item.size else removed := by
                    cases gone with
                    | false => rfl
                    | true =>
                        have hroom := hat3.room
                        have hlt : u.recorded s3 < 2 ^ 64 := recordedSize_lt u.home s3.1
                        rw [if_pos rfl] at hroom ⊢
                        rw [if_pos rfl, Nat.mod_eq_of_lt (by omega)]
                  rw [hfreed]
                  refine keeps_pure fun s4 hrely _ => ?_
                  have hk4 : Kept u i f s3 s4 := .of_rely hat3.inside hrely
                  exact ⟨hat3.kept hk4, ⟨o2, (ho3.kept hk4).toHeld⟩, (ho3.kept hk4).loose,
                    (htrimmed2.trans htrimmed3).trans hk4.still.trimmed⟩
            refine (withItem_keeps hinv1 hbody).andThen hinv1 ?_
            rintro removed' s2 hinv2 ⟨hat2, s3, htrimmed, htrimmed'⟩
            have htrimmed2 := htrimmed.trans htrimmed'
            refine (ih hinv2 hat2 fun x hx => (hitems x (List.mem_cons_of_mem item hx)).trimmed htrimmed2).mono ?_
            exact fun r s4 _ hpost => ⟨hpost.1.trans htrimmed2.recorded, hpost.2⟩

/-- With failures that are harmless, `purge` keeps the invariant. -/
theorem purge_keeps (hop : op = .purge) (hinv : Inv u s)
    (hinfo : ∀ f, t.cache.cacheInfoFd = some f → HasInfo u s.1 i f)
    (hdir : ∀ f, t.cache.cacheInfoFd = some f → t.cache.cacheDir = u.dir) :
    Keeps u i op t t.cache.purge (fun _ s' => Leaves u i t.cache.cacheInfoFd none s s') s := by
  have hrecords : Records op := by
    rw [hop]
    exact trivial
  refine locked_keeps hinv hinfo fun f s1 hf hinv1 hat => ?_
  refine (getCacheInfoSize_keeps hat.inside).andThen hinv1 ?_
  rintro recorded s2 hinv2 ⟨hk2, hrecorded⟩
  have hat2 := hat.kept hk2
  split
  · exact keeps_pure fun s3 hrely _ => hat2.rely hrely
  next hmax =>
    -- with zero for a size that could not be read it would have stopped: zero is below the maximum
    have hrecorded := hrecorded.resolve_right fun ⟨hzero, hforgives⟩ => by
      have hpos := hforgives.2
      omega
    refine (filesInCache_keeps hinv2 hat2.inside).andThen hinv2 ?_
    rintro files s3 hinv3 ⟨hk3, hfiles⟩
    cases files with
    | none => exact keeps_pure fun s4 hrely _ => (hat2.kept hk3).rely hrely
    | some files =>
        obtain ⟨names, rfl, hnames⟩ := hfiles files rfl
        refine (statFiles_keeps (hdir f hf) hnames hinv3 hk3.inside (List.forall_mem_nil _)).andThen hinv3 ?_
        rintro items s4 hinv4 ⟨hk4, hitems⟩
        have hk := hk3.trans hk4
        cases items with
        | none => exact keeps_pure fun s5 hrely _ => (hat2.kept hk).rely hrely
        | some items =>
            refine (removeItems_keeps (hdir f hf) hinv4 (hat2.kept hk) (hitems items rfl)).andThen hinv4 ?_
            rintro removed s5 hinv5 ⟨hsame, d, hat5, hremoved⟩
            cases removed with
            | none => exact keeps_pure fun s6 hrely hinv6 => At.ended (hat5.rely hrely) hinv6
            | some removed =>
                obtain rfl := hremoved removed rfl
                have hrecorded5 : recorded = u.recorded s5 := by
                  rw [hsame, hk.still.recorded, hrecorded]
                refine (subtract_keeps hrecords hat5 hinv5 hrecorded5).mono ?_
                exact fun _ s6 hinv6 hupdated => hat5.updated hupdated hinv6 nofun

end Faulty

end Skunk.BesUtils
