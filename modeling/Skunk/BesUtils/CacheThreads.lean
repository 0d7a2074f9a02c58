import Skunk.BesUtils.CacheBalance

/-!
# Threads that share one cache object

The threads of a process, and its forked children, have one `FileCache` between them and so one
descriptor for `cache_info`. A lock belongs to the open file description: asked for again through the same
descriptor, it is granted at once, and whoever unlocks it unlocks it for all. So the lock of the cache
keeps threads apart only as long as none asks for it while another has it.
-/

namespace Skunk.BesUtils

open Effect Posix

namespace Usage

variable {f : Nat} {a b : Config sysCalls Kernel Session}

/-- Threads that put, get and delete items, close what they got and purge the cache. -/
def ThreadUse : CacheOp → Prop
  | .put key _ | .putData key _ | .del key => IsKey key
  | .get _ | .closeItem _ | .purge => True
  | _ => False

instance : DecidablePred ThreadUse
  | .put key _ | .putData key _ | .del key => inferInstanceAs (Decidable (IsKey key))
  | .get _ | .closeItem _ | .purge => isTrue trivial
  | .initCache _ _ _ | .putItem _ | .writePutItem _ _ | .seekPutItem _ _ | .destroyPutItem _
  | .destroyEmptyPutItem | .clear => isFalse id

/-- No write fails, and the lock of the descriptor `f` is asked for only while it is free. -/
def OneAtATime (f : Nat) : Nat → (c : SysCall) → Kernel → c.Reply → Prop
  | _, .write _ bytes, _, r => r = some bytes.length
  | _, .flock fd _ _, K, _ => fd = f → ∀ o, K.opened fd = some o → o.lock = none
  | _, _, _, _ => True

instance (f : Nat) : ∀ i c K r, Decidable (OneAtATime f i c K r)
  | _, .write _ bytes, _, r => inferInstanceAs (Decidable (r = some bytes.length))
  | _, .flock fd _ _, K, _ => inferInstanceAs (Decidable (fd = f → ∀ o ∈ K.opened fd, o.lock = none))
  | _, .stat _, _, _ | _, .mkdirP _, _, _ | _, .create _, _, _ | _, .openRead _, _, _
  | _, .openWrite _, _, _ | _, .close _, _, _ | _, .unlock _, _, _ | _, .futimes _, _, _
  | _, .seek _ _, _, _ | _, .read _ _, _, _ | _, .fstat _, _, _ | _, .remove _, _, _
  | _, .readdir _, _, _ | _, .source _, _, _ | _, .subtract _ _, _, _ => instDecidableTrue

/-- The threads that stand between a successful `lock_the_cache` and the end of the `CacheLock`, after one
more event. -/
def sectionsAfter (f : Nat) (inside : List Nat) : Event sysCalls CacheOp → List Nat
  | .called i (SysCall.flock fd .exclusive false) true => if fd = f then i :: inside else inside
  | .called i (SysCall.unlock fd) _ => if fd = f then inside.erase i else inside
  | _ => inside

theorem sectionsAfter_flock (inside : List Nat) (i fd : Nat) (mode : FlockMode) (nonblock r : Bool) :
    sectionsAfter f inside (.called i (SysCall.flock fd mode nonblock) r) =
      if mode = .exclusive ∧ nonblock = false ∧ r = true ∧ fd = f then i :: inside else inside := by
  cases mode <;> cases nonblock <;> cases r <;> simp [sectionsAfter]

/-- The threads that are in their sections after these events. -/
def openSections (f : Nat) (events : List (Event sysCalls CacheOp)) : List Nat :=
  events.foldl (sectionsAfter f) []

/-- A cache that threads are about to use with one object; its recorded size is right. -/
structure SharedCache (dir : Text) (f : Nat) (a : Config sysCalls Kernel Session) : Prop where
  wf : a.world.Wf
  info : ∃ o, a.world.opened f = some o ∧ (resolve dir ++ [cacheInfoName], o.ino) ∈ a.world.files
  unlocked : ∀ fd o, a.world.opened fd = some o →
    (resolve dir ++ [cacheInfoName], o.ino) ∈ a.world.files → o.lock = none
  noFolder : ∀ n ino, (resolve dir ++ [n], ino) ∉ a.world.folders
  balanced : recordedSize (resolve dir) a.world = itemBytes (resolve dir) a.world
  object : ∃ fc : FileCache, fc.cacheDir = dir ∧ fc.cacheInfoFd = some f ∧
    ∀ i, a.tasks i = .idle { Session.new with cache := fc }

theorem SharedCache.starts {dir : Text} (h : SharedCache dir f a) (hdir : '\x00' ∉ dir) :
    Starts ⟨dir, some f, true, true, false, hdir⟩ a where
  wf := h.wf
  unlocked := h.unlocked
  idle := by
    intro i
    obtain ⟨fc, hcache, hinfo, hobject⟩ := h.object
    refine ⟨_, hobject i, rfl, rfl, fun g hg => ⟨hcache, ?_⟩⟩
    obtain rfl : f = g := Option.some.inj (hinfo.symm.trans hg)
    obtain ⟨o, ho, hfile⟩ := h.info
    exact ⟨o, ho, hfile, .inl rfl⟩
  noFolder := fun _ _ => h.noFolder
  balanced := fun _ => h.balanced

section Sections

variable {u : Usage} {may : CacheOp → Prop} {g g' : Ghost} {e : Event sysCalls CacheOp}

/-- The shared descriptor stays one for `cache_info`, whoever makes a call. -/
theorem onInfo_of_step (hmay : ∀ op, may op → Allowed u op) (hshared : u.shared = some f)
    (h : Coupled (u.system may) u.protocol (Idle u) a g) (hstep : (u.system may).Step a e b)
    (hinfo : u.OnInfo a.world f) : u.OnInfo b.world f := by
  obtain ⟨g', -, -, hrely⟩ := (obligations hmay).step h hstep
  -- a bystander relies on it
  have hbystander : ∃ j, e.caller ≠ some j := by
    cases hcaller : e.caller with
    | none => exact ⟨0, nofun⟩
    | some i => exact ⟨i + 1, fun heq => absurd (Option.some.inj heq) (by omega)⟩
  obtain ⟨j, hj⟩ := hbystander
  obtain ⟨o, ho, hfile⟩ := hinfo
  obtain ⟨o', ho', hino⟩ := (hrely j hj).shared f o hshared ho
  exact ⟨o', ho', by rw [hino]; exact (hrely j hj).info o.ino hfile⟩

/-- The client in the section is the one whose section is open. -/
theorem sections_of_step (hshared : u.shared = some f)
    (h : Coupled (u.system may) u.protocol (Idle u) a g) (hstep : (u.system may).Step a e b)
    (hinfo : u.OnInfo a.world f) (hmark : Marked u.protocol a b g g' e) :
    sectionsAfter f (g.holder.map Prod.fst).toList e = (g'.holder.map Prod.fst).toList := by
  have hshared_fd : ∀ {j fd}, g.holder = some (j, fd) → fd = f := by
    intro j fd hj
    obtain ⟨o, -, -, -, hsh | ⟨hnone, -⟩⟩ := h.inv.holds j fd hj
    · exact (Option.some.inj (hshared.symm.trans hsh)).symm
    · rw [hshared] at hnone
      cases hnone
  cases hstep with
  | begun htask hmay =>
      obtain rfl : g' = g := hmark
      rfl
  | drifted hdrift =>
      obtain rfl : g' = g := hmark
      rfl
  | @called i c k r w htask hexec hadm =>
      have hsafe := h.safe htask
      cases c with
      | flock fd mode nonblock =>
          rw [sectionsAfter_flock]
          rcases hmark with ⟨hholder, hnot⟩ | ⟨hfd, rfl, rfl, rfl, hnone, hholder⟩
          · rw [if_neg, hholder]
            rintro ⟨-, -, rfl, rfl⟩
            exact hnot ⟨hinfo, rfl⟩
          · -- a lock that would wait is only asked for through the shared descriptor
            have hfd : fd = f := by
              rcases (hsafe.1 hfd).2 with hnosharing | hsh
              · rw [hshared] at hnosharing
                cases hnosharing
              · exact (Option.some.inj (hshared.symm.trans hsh)).symm
            have hnone : g.holder = none := hnone
            have hholder : g'.holder = some (i, fd) := hholder
            rw [if_pos ⟨rfl, rfl, rfl, hfd⟩, hnone, hholder]
            rfl
      | unlock fd =>
          obtain ⟨hin, hout⟩ := hmark
          have hin : g.holder = some (i, fd) := hin
          have hout : g'.holder = none := hout
          show (if fd = f then _ else _) = _
          rw [if_pos (hshared_fd hin), hin, hout]
          exact List.erase_cons_head i []
      | _ =>
          have hholder : g'.holder = g.holder := hmark
          rw [hholder]
          rfl

/-- After every run, the sections that are open are those of the client in the section. -/
theorem sections_of_run {cond : Nat → (c : SysCall) → Kernel → c.Reply → Prop}
    (hmay : ∀ op, may op → Allowed u op) (hcond : ∀ i c K r, cond i c K r → u.Tidy i c K r)
    (hshared : u.shared = some f) {steps : List (Event sysCalls CacheOp × Config sysCalls Kernel Session)}
    (h : Coupled (u.system may) u.protocol (Idle u) a g) (hinfo : u.OnInfo a.world f)
    (hrun : ((clients may).restrict cond).Run a steps) :
    ∃ g', Coupled (u.system may) u.protocol (Idle u) (System.last a steps) g' ∧
      (steps.map Prod.fst).foldl (sectionsAfter f) (g.holder.map Prod.fst).toList =
        (g'.holder.map Prod.fst).toList := by
  induction steps generalizing a g with
  | nil => exact ⟨g, h, rfl⟩
  | cons step steps ih =>
      obtain ⟨e, b⟩ := step
      have hstep := step_of_clients hcond hrun.1
      obtain ⟨g1, hb, hmark, -⟩ := (obligations hmay).step h hstep
      obtain ⟨g2, hlast, hsections⟩ := ih hb (onInfo_of_step hmay hshared h hstep hinfo) hrun.2
      refine ⟨g2, hlast, ?_⟩
      rw [List.map_cons, List.foldl_cons, sections_of_step hshared h hstep hinfo hmark]
      exact hsections

end Sections

/-- Threads that ask for the lock of the cache only while none of them has it are never in their sections
at the same time, and once all calls have returned, the recorded size is the size of all items. -/
theorem sections_disjoint {dir : Text} (hdir : '\x00' ∉ dir) (hcache : SharedCache dir f a)
    {steps : List (Event sysCalls CacheOp × Config sysCalls Kernel Session)}
    (hrun : ((clients ThreadUse).restrict (OneAtATime f)).Run a steps) :
    (openSections f (steps.map Prod.fst)).length ≤ 1 ∧
    (System.Quiescent (System.last a steps) →
      recordedSize (resolve dir) (System.last a steps).world =
        itemBytes (resolve dir) (System.last a steps).world) := by
  let u : Usage := ⟨dir, some f, true, true, false, hdir⟩
  have hallowed : ∀ op, ThreadUse op → Allowed u op := by
    intro op hop
    cases op with
    | put | putData | del => exact fun _ => hop
    | purge => exact fun _ => rfl
    | get | closeItem => trivial
    | initCache | putItem | writePutItem | seekPutItem | destroyPutItem | destroyEmptyPutItem | clear =>
        exact hop.elim
  have htidy : ∀ i c K r, OneAtATime f i c K r → u.Tidy i c K r := by
    intro i c K r hr
    cases c with
    | write => exact fun _ => ⟨hr, nofun⟩
    | flock fd => exact fun hsh => hr (Option.some.inj hsh).symm
    | _ => trivial
  obtain ⟨o, ho, hfile⟩ := hcache.info
  obtain ⟨g, hlast, hsections⟩ := sections_of_run (u := u) hallowed htidy rfl
    (hcache.starts hdir).coupled ⟨o, ho, hfile⟩ hrun
  constructor
  · show ((steps.map Prod.fst).foldl (sectionsAfter f) []).length ≤ 1
    rw [show (steps.map Prod.fst).foldl (sectionsAfter f) [] = _ from hsections, Option.length_toList]
    split <;> decide
  · exact fun hquiet => recorded_of_quiescent hlast hquiet rfl rfl

/-- Threads with one object for an empty cache. -/
def threads : Config sysCalls Kernel Session where
  world := emptyCache.addOpen 0 2
  tasks := fun _ => .idle { Session.new with cache := ⟨['/', 'c'], 0, 0, some 0⟩ }

theorem shared_threads : SharedCache ['/', 'c'] 0 threads where
  wf := wf_emptyCache.addOpen 0 (by decide)
  info := ⟨⟨2, 0, none, 0⟩, rfl, List.mem_cons_self⟩
  unlocked := by
    intro fd o ho _
    rcases fd with _ | fd
    · obtain rfl := Option.some.inj ho
      rfl
    · cases ho
  noFolder := by
    intro n ino hmem
    have hlocs : [['c'], n] ∈ threads.world.folders.map Prod.fst := List.mem_map.mpr ⟨_, hmem, rfl⟩
    simp [threads, emptyCache, Kernel.addOpen] at hlocs
  balanced := rfl
  object := ⟨_, rfl, rfl, fun _ => rfl⟩

/-- One thread after the other. -/
theorem sections_disjoint_two : ∃ b : Config sysCalls Kernel Session, itemBytes [['c']] b.world = 8 ∧
    recordedSize [['c']] b.world = itemBytes [['c']] b.world := by
  obtain ⟨steps, hrun, hquiet, hsize⟩ := System.exists_quiescent
    ((clients ThreadUse).restrict (OneAtATime 0)) threads
    ((0, some (.putData ['a'] [1, 2, 3])) :: List.replicate 12 (0, none) ++
      (1, some (.putData ['b'] [1, 2, 3, 4, 5])) :: List.replicate 12 (1, none)) [0, 1]
    (p := fun steps => itemBytes [['c']] (System.last threads steps).world = 8)
    (by decide) (fun _ => rfl) (by decide)
  have hsize := of_decide_eq_true hsize
  exact ⟨_, hsize, (sections_disjoint (by decide) shared_threads hrun).2 hquiet⟩

/-- The second thread begins and ends its section in the midst of that of the first, which has read the
recorded size before and writes it after. -/
theorem sections_overlap : ∃ steps, ((clients ThreadUse).restrict WritesSucceed).Run threads steps ∧
    System.Quiescent (System.last threads steps) ∧
    (∃ n, openSections 0 ((steps.take n).map Prod.fst) = [1, 0]) ∧
    recordedSize [['c']] (System.last threads steps).world = 3 ∧
    itemBytes [['c']] (System.last threads steps).world = 8 := by
  obtain ⟨steps, hrun, hquiet, hsizes⟩ := System.exists_quiescent
    ((clients ThreadUse).restrict WritesSucceed) threads
    ((0, some (.putData ['a'] [1, 2, 3])) :: List.replicate 7 (0, none) ++
      (1, some (.putData ['b'] [1, 2, 3, 4, 5])) :: List.replicate 12 (1, none) ++
      List.replicate 5 (0, none)) [0, 1]
    (p := fun steps => openSections 0 ((steps.take 10).map Prod.fst) = [1, 0] ∧
      recordedSize [['c']] (System.last threads steps).world = 3 ∧
      itemBytes [['c']] (System.last threads steps).world = 8)
    (by decide) (fun _ => rfl) (by decide)
  obtain ⟨hopen, hrecorded, htotal⟩ := of_decide_eq_true hsizes
  exact ⟨steps, hrun, hquiet, ⟨10, hopen⟩, hrecorded, htotal⟩

end Usage

end Skunk.BesUtils
