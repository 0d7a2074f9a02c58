import Skunk.BesUtils.CacheRuns
import Skunk.BesUtils.DraftCalls
import Skunk.BesUtils.DraftRuns

/-!
# What is in an item

Any number of processes put, get, delete, purge and clear, with their calls in any order. Whoever gets an
item gets a file that its owner has finished with, which holds what was put under the key, and nobody ever
changes it: not while the item is open, not after it has been closed, and not when the file has been
removed from the directory while somebody has it open.
-/

namespace Skunk.BesUtils

open Effect Posix

variable {dir : Text} {K₀ K K' : Kernel} {hs : Nat → Hand} {i : Nat} {h : Hand}

/-! ## The rules are kept in every run -/

theorem Sound.drifted (hsound : Sound dir K₀ K hs) (hdrift : Kernel.Drift K K') :
    Sound dir K₀ K' hs := by
  have hsame : SameStore K K' :=
    ⟨hsound.wf.drift hdrift, hdrift.files, hdrift.folders, hdrift.nextIno, Nat.le_of_eq hdrift.nextFd.symm⟩
  have hquiet : Sound dir K₀ K' (Function.update hs 0 (hs 0)) :=
    hsound.quiet hsame hdrift.data hdrift.opened rfl rfl rfl rfl fun _ hx => hx
  rwa [Function.update_eq_self] at hquiet

/-- The processes keep to the rules, and so everything stays sound. -/
theorem disciplined (hdir : '\x00' ∉ dir) (K₀ : Kernel) :
    Disciplined (Usage.clients (keyed dir)) (rules dir) (Sound dir K₀) (AtRest dir) where
  start := fun hop hrest => run_goes hop hrest
  begun := by
    intro K hs i op _ hsound
    exact hsound.quiet ⟨hsound.wf, List.Perm.refl _, rfl, rfl, Nat.le_refl _⟩ rfl rfl rfl rfl rfl rfl
      fun _ hs => hs
  called := fun hsound hok hexec _ => hsound.called hdir hok hexec
  drifted := fun hsound hdrift => hsound.drifted hdrift

theorem AtRest.new : AtRest dir .new .new where
  inside := rfl
  settled := by simp [Hand.Settled, Hand.new]
  nodup := List.nodup_nil
  cache := nofun
  putItems := by simp [Session.new]
  items := by simp [Session.new]
  putItems_nodup := List.nodup_nil
  items_nodup := List.nodup_nil
  answered := nofun

theorem Sound.new (hwf : K.Wf) : Sound dir K K fun _ => .new where
  wf := hwf
  nextIno := Nat.le_refl _
  draft := by simp [Hand.new]
  distinct := by simp [Hand.new]
  known := by
    intro e he _ hnew
    exact absurd (hwf.entry_lt e (Kernel.mem_entries_of_file he)) (Nat.not_lt.mpr hnew)
  old := fun _ _ _ => rfl
  descs := by
    intro i
    refine ⟨?_, ?_, List.nodup_nil, ?_, nofun, ?_, ?_, ?_⟩
    · simp [Hand.Holds, Hand.new]
    · simp [Hand.new]
    · simp [Hand.new]
    · simp [Hand.new]
    · simp [Hand.new]
    · simp [Hand.new]

/-- What the processes have in hand after a run that begins with new ones. -/
def handsAfter (dir : Text) (a : Config sysCalls Kernel Session)
    (steps : List (Event sysCalls CacheOp × Config sysCalls Kernel Session)) : Nat → Hand :=
  (rules dir).hands a steps fun _ => .new

/-! ## What a call leaves as it is -/

structure Finished (dir : Text) (K : Kernel) (hs : Nat → Hand) (ino : Nat) : Prop where
  lt : ino < K.nextIno
  notInfo : ¬ IsInfoFile dir K ino
  closed : ∀ j, ∀ p ∈ (hs j).drafts, p.ino = ino → p.stage = .closed

/-- Only a file that is not closed is changed. -/
theorem next_drafts {c : SysCall} {r : c.Reply} (hd : Descs dir K₀ K hs i h) (hok : h.Ok dir c)
    {q : Draft} (hq : q ∈ (h.next dir K c r).drafts) :
    K.nextIno ≤ q.ino ∨ ∃ p ∈ h.drafts, p.ino = q.ino ∧ (p.stage = .closed → q = p) := by
  have hsame : ∀ q ∈ h.drafts, K.nextIno ≤ q.ino ∨ ∃ p ∈ h.drafts, p.ino = q.ino ∧
      (p.stage = .closed → q = p) := fun q hq => .inr ⟨q, hq, rfl, fun _ => rfl⟩
  have hedit : ∀ (fd : Nat) (g : Draft → Draft), (∀ p, (g p).ino = p.ino) →
      (∀ p ∈ h.drafts, p.fd = fd → p.stage ≠ .closed) → ∀ q ∈ (h.edit fd g).drafts,
      K.nextIno ≤ q.ino ∨ ∃ p ∈ h.drafts, p.ino = q.ino ∧ (p.stage = .closed → q = p) := by
    intro fd g hg hopen q hq
    obtain ⟨p, hp, rfl⟩ := List.mem_map.mp hq
    right
    refine ⟨p, hp, ?_, fun hclosed => ?_⟩
    · split
      · exact (hg p).symm
      · rfl
    · exact if_neg fun hfd => hopen p hp hfd hclosed
  -- what a descriptor is for that may be written to or moved in
  have hmoves : ∀ fd, (fd ∈ h.infos ∨ ∃ p ∈ h.drafts, p.fd = fd ∧ p.stage = .locked) →
      ∀ p ∈ h.drafts, p.fd = fd → p.stage ≠ .closed := by
    rintro fd (hinfo | ⟨p, hp, rfl, hstage⟩) q hq hqfd
    · exact absurd hqfd ((hd.fd_of_info hinfo).1 q hq)
    · rw [(hd.fd_of_draft hp).2.1 q hq hqfd, hstage]
      exact nofun
  cases c with
  | create path =>
      cases r with
      | none => exact hsame q hq
      | some fd =>
          replace hq : q ∈ (if path = infoPath dir then { h with infos := fd :: h.infos }
            else h.drafting ⟨fd, K.nextIno, path, h.op, h.turn, [], 0, .created, false⟩).drafts := hq
          split at hq
          · exact hsame q hq
          · rcases List.mem_cons.mp hq with rfl | hq
            · exact .inl (Nat.le_refl _)
            · exact hsame q hq
  | openRead path =>
      cases r with
      | none => exact hsame q hq
      | some fd => exact hsame q hq
  | openWrite path =>
      cases r with
      | none => exact hsame q hq
      | some fd =>
          replace hq : q ∈ (if path = infoPath dir then { h with infos := fd :: h.infos }
            else h.reading ⟨fd, path, h.op⟩).drafts := hq
          split at hq
          · exact hsame q hq
          · exact hsame q hq
  | close fd =>
      refine hedit fd (fun p => { p with stage := .closed }) (fun _ => rfl) ?_ q hq
      rcases hok with ⟨y, hy, rfl⟩ | ⟨p, hp, hpfd, hstage, -⟩
      · exact fun p hp heq => absurd heq (Hand.ne_of_reading hd.nodup hy p hp)
      · exact hmoves fd (.inr ⟨p, hp, hpfd, hstage⟩)
  | flock fd mode nonblock =>
      cases r with
      | false => exact hsame q hq
      | true =>
          replace hq : q ∈ (if fd ∈ h.infos then { h with inside := some fd }
            else h.edit fd fun p => { p with stage := .locked }).drafts := hq
          split at hq
          · exact hsame q hq
          · refine hedit fd (fun p => { p with stage := .locked }) (fun _ => rfl) ?_ q hq
            rcases hok with ⟨hinfo, -⟩ | ⟨p, hp, rfl, hstage, -⟩ | ⟨-, ⟨y, hy, rfl⟩, -⟩
            · exact fun p hp heq => absurd heq ((hd.fd_of_info hinfo).1 p hp)
            · intro p' hp' heq
              rw [(hd.fd_of_draft hp).2.1 p' hp' heq, hstage]
              exact nofun
            · exact fun p hp heq => absurd heq (Hand.ne_of_reading hd.nodup hy p hp)
  | seek fd pos =>
      cases r with
      | false => exact hsame q hq
      | true => exact hedit fd (fun p => { p with offset := pos }) (fun _ => rfl) (hmoves fd hok) q hq
  | write fd bytes =>
      cases r with
      | none => exact hedit fd (fun p => { p with failed := true }) (fun _ => rfl) (hmoves fd hok) q hq
      | some n =>
          exact hedit fd (fun p => { p with
            bytes := overwrite p.bytes p.offset bytes
            offset := p.offset + bytes.length }) (fun _ => rfl) (hmoves fd hok) q hq
  | stat | mkdirP | unlock | futimes | read | fstat | remove | readdir | source | subtract =>
      exact hsame q hq

/-- A file that is new has a new number. -/
theorem files_of_exec {c : SysCall} {r : c.Reply} (hexec : Kernel.exec i c K = some (r, K'))
    {e : List Text × Nat} (he : e ∈ K'.files) : e ∈ K.files ∨ e.2 = K.nextIno := by
  cases c with
  | stat | fstat | readdir | source | subtract | close =>
      obtain ⟨-, rfl⟩ := Prod.mk.inj (Option.some.inj hexec)
      exact .inl he
  | mkdirP path =>
      obtain ⟨-, rfl⟩ := Prod.mk.inj (Option.some.inj hexec)
      rw [(Usage.grows_makeFolders K [] (pieces (cStr path))).files] at he
      exact .inl he
  | create path =>
      rcases Kernel.exec_create hexec with ⟨-, rfl⟩ | ⟨loc, -, -, -, rfl⟩
      · exact .inl he
      · rcases List.mem_cons.mp he with rfl | he
        · exact .inr rfl
        · exact .inl he
  | openRead path =>
      rcases Kernel.exec_openRead hexec with ⟨-, -, rfl⟩ | ⟨n, -, -, rfl⟩
      · exact .inl he
      · exact .inl he
  | openWrite path =>
      rcases Kernel.exec_openWrite hexec with ⟨-, -, rfl⟩ | ⟨n, -, -, rfl⟩
      · exact .inl he
      · exact .inl he
  | flock | unlock | futimes | seek | read =>
      rw [Kernel.exec] at hexec
      repeat' split at hexec
      all_goals cases hexec
      all_goals exact .inl he
  | write fd bytes =>
      cases ho : K.opened fd with
      | none =>
          rw [Kernel.exec, ho] at hexec
          obtain ⟨-, rfl⟩ := Prod.mk.inj (Option.some.inj hexec)
          exact .inl he
      | some o =>
          rcases Kernel.exec_write ho hexec with ⟨-, -, rfl⟩ | ⟨-, rfl⟩
          · exact .inl he
          · exact .inl he
  | remove path =>
      rcases Kernel.exec_remove hexec with ⟨-, rfl⟩ | ⟨loc, n, -, -, -, rfl⟩
      · exact .inl he
      · exact .inl (List.mem_of_mem_filter he)

/-- Whoever may write writes to another file. -/
theorem Sound.data_called (hsound : Sound dir K₀ K hs) {c : SysCall} {r : c.Reply}
    (hok : (hs i).Ok dir c) (hexec : Kernel.exec i c K = some (r, K')) {ino : Nat}
    (hfin : Finished dir K hs ino) : K'.data ino = K.data ino := by
  cases c with
  | stat | fstat | readdir | source | subtract | close =>
      obtain ⟨-, rfl⟩ := Prod.mk.inj (Option.some.inj hexec)
      rfl
  | mkdirP path =>
      obtain ⟨-, rfl⟩ := Prod.mk.inj (Option.some.inj hexec)
      exact (Usage.grows_makeFolders K [] (pieces (cStr path))).data ino hfin.lt
  | create path =>
      rcases Kernel.exec_create hexec with ⟨-, rfl⟩ | ⟨loc, -, -, -, rfl⟩
      · rfl
      · exact Kernel.addFile_data_of_ne (Nat.ne_of_lt hfin.lt)
  | openRead path =>
      rcases Kernel.exec_openRead hexec with ⟨-, -, rfl⟩ | ⟨n, -, -, rfl⟩
      · rfl
      · rfl
  | openWrite path =>
      rcases Kernel.exec_openWrite hexec with ⟨-, -, rfl⟩ | ⟨n, -, -, rfl⟩
      · rfl
      · rfl
  | flock | unlock | futimes | seek | read =>
      rw [Kernel.exec] at hexec
      repeat' split at hexec
      all_goals cases hexec
      all_goals rfl
  | write fd bytes =>
      obtain ⟨o, ho⟩ := hsound.opened_of_moves hok
      rcases Kernel.exec_write ho hexec with ⟨-, -, rfl⟩ | ⟨-, rfl⟩
      · show (K.setData o.ino _).data ino = K.data ino
        apply Kernel.setData_data_of_ne
        rintro rfl
        rcases hok with hinfo | ⟨p, hp, rfl, hstage⟩
        · exact hfin.notInfo ((hsound.descs i).info fd hinfo o ho)
        · obtain ⟨y, hy, hino, -⟩ := (hsound.descs i).draft p hp (by simp [hstage])
          rw [ho] at hy
          obtain rfl := Option.some.inj hy
          have hclosed := hfin.closed i p hp hino.symm
          rw [hstage] at hclosed
          cases hclosed
      · rfl
  | remove path =>
      rcases Kernel.exec_remove hexec with ⟨-, rfl⟩ | ⟨loc, n, -, -, -, rfl⟩
      · rfl
      · rfl

/-- A file that is finished with stays so. -/
theorem Sound.finished_called (hsound : Sound dir K₀ K hs) {c : SysCall} {r : c.Reply}
    (hok : (hs i).Ok dir c) (hexec : Kernel.exec i c K = some (r, K')) {ino : Nat}
    (hfin : Finished dir K hs ino) :
    Finished dir K' (Function.update hs i ((hs i).next dir K c r)) ino where
  lt := Nat.lt_of_lt_of_le hfin.lt (Kernel.later_of_exec hexec).nextIno
  notInfo := by
    intro hinfo
    rcases files_of_exec hexec hinfo with hold | hnew
    · exact hfin.notInfo hold
    · exact Nat.ne_of_lt hfin.lt hnew
  closed := by
    intro j q hq hino
    by_cases hj : j = i
    · subst hj
      rw [Function.update_self] at hq
      rcases next_drafts (hsound.descs j) hok hq with hnew | ⟨p, hp, hpino, hsame⟩
      · rw [hino] at hnew
        exact absurd hfin.lt (Nat.not_lt.mpr hnew)
      · have hclosed := hfin.closed j p hp (hpino.trans hino)
        rw [hsame hclosed]
        exact hclosed
    · rw [Function.update_of_ne hj] at hq
      exact hfin.closed j q hq hino

/-- In every run, a file that is finished with keeps its content. -/
theorem finished_disciplined (hdir : '\x00' ∉ dir) (K₀ : Kernel) (ino : Nat) (bytes : List UInt8) :
    Disciplined (Usage.clients (keyed dir)) (rules dir)
      (fun K hs => Sound dir K₀ K hs ∧ Finished dir K hs ino ∧ K.data ino = bytes) (AtRest dir) := by
  refine (disciplined hdir K₀).and ?_ ?_ ?_
  · rintro K hs i op - - ⟨hfin, hdata⟩
    refine ⟨⟨hfin.lt, hfin.notInfo, ?_⟩, hdata⟩
    intro j p hp hino
    by_cases hj : j = i
    · subst hj
      rw [Function.update_self] at hp
      exact hfin.closed j p hp hino
    · rw [Function.update_of_ne hj] at hp
      exact hfin.closed j p hp hino
  · rintro K K' hs i c r hsound ⟨hfin, hdata⟩ hok hexec -
    exact ⟨hsound.finished_called hok hexec hfin, (hsound.data_called hok hexec hfin).trans hdata⟩
  · rintro K K' hs - ⟨hfin, hdata⟩ hdrift
    have hinfo : ∀ ino, IsInfoFile dir K' ino ↔ IsInfoFile dir K ino := fun ino => hdrift.files.mem_iff
    refine ⟨⟨?_, ?_, hfin.closed⟩, ?_⟩
    · rw [hdrift.nextIno]
      exact hfin.lt
    · rw [hinfo]
      exact hfin.notInfo
    · rw [hdrift.data]
      exact hdata

/-! ## The items -/

/-- A client that is not busy has an item, with a lock on it. -/
def HasItem (b : Config sysCalls Kernel Session) (i fd : Nat) (o : OpenFile) : Prop :=
  ∃ t, b.tasks i = .idle t ∧ fd ∈ t.items ∧ b.world.opened fd = some o ∧ o.lock ≠ none

def hasItem (b : Config sysCalls Kernel Session) (i fd : Nat) : Bool :=
  match b.tasks i with
  | .idle t => fd ∈ t.items && (b.world.opened fd).any fun o => o.lock.isSome
  | .busy _ _ => false

theorem exists_hasItem {b : Config sysCalls Kernel Session} {fd : Nat} (h : hasItem b i fd = true) :
    ∃ o, HasItem b i fd o := by
  unfold hasItem at h
  split at h
  next t htask =>
    rw [Bool.and_eq_true] at h
    obtain ⟨o, ho, hlock⟩ := (Option.any_eq_true _ _).mp h.2
    exact ⟨o, t, htask, of_decide_eq_true h.1, ho, Option.isSome_iff_ne_none.mp hlock⟩
  · cases h

section Runs

variable {a b c : Config sysCalls Kernel Session}

theorem orderly_new (dir : Text) (hwf : a.world.Wf) (hnew : ∀ i, a.tasks i = .idle .new) :
    a.Orderly (rules dir) (Sound dir a.world) (AtRest dir) fun _ => .new where
  sound := .new hwf
  keeps := by
    intro i
    rw [hnew i]
    exact AtRest.new

/-- An item that is locked is finished with. -/
theorem finished_of_item (hb : b.Orderly (rules dir) (Sound dir K₀) (AtRest dir) hs) {fd : Nat}
    {o : OpenFile} (hitem : HasItem b i fd o) :
    ∃ x ∈ (hs i).readings, x.fd = fd ∧ (∃ key, IsKey key ∧ x.op = some (.get key) ∧
      x.path = pathConcat dir key) ∧ x.Known dir K₀ b.world hs o ∧ Finished dir b.world hs o.ino := by
  obtain ⟨t, htask, hitem, ho, hlock⟩ := hitem
  obtain ⟨x, hx, rfl, hkey⟩ := (hb.at_rest htask).items fd hitem
  have hknown := (hb.sound.descs i).reading x hx o ho
  exact ⟨x, hx, rfl, hkey, hknown, hb.sound.wf.ino_lt x.fd o ho, hknown.notInfo, hknown.locked hlock⟩

theorem Finished.data_of_reaches (hdir : '\x00' ∉ dir) {ino : Nat} (hfin : Finished dir b.world hs ino)
    (hb : b.Orderly (rules dir) (Sound dir K₀) (AtRest dir) hs)
    (hbc : (Usage.clients (keyed dir)).Reaches b c) : c.world.data ino = b.world.data ino := by
  obtain ⟨steps, hrun, rfl⟩ := hbc
  have hb' : b.Orderly (rules dir) (fun K hs => Sound dir K₀ K hs ∧ Finished dir K hs ino ∧
      K.data ino = b.world.data ino) (AtRest dir) hs := ⟨⟨hb.sound, hfin, rfl⟩, hb.keeps⟩
  exact ((finished_disciplined hdir K₀ ino _).run hb' hrun).sound.2.2

/-- What is in an item that somebody has got never changes again, whatever the processes do. -/
theorem item_unchanged (hdir : '\x00' ∉ dir) (hwf : a.world.Wf) (hnew : ∀ i, a.tasks i = .idle .new)
    (hab : (Usage.clients (keyed dir)).Reaches a b) (hbc : (Usage.clients (keyed dir)).Reaches b c)
    {fd : Nat} {o : OpenFile} (hitem : HasItem b i fd o) : c.world.data o.ino = b.world.data o.ino := by
  obtain ⟨steps, hrun, rfl⟩ := hab
  have hb := (disciplined hdir a.world).run (orderly_new dir hwf hnew) hrun
  obtain ⟨-, -, -, -, -, hfin⟩ := finished_of_item hb hitem
  exact hfin.data_of_reaches hdir hb hbc

/-- New processes that are about to use an empty folder. -/
def newCache : Config sysCalls Kernel Session := ⟨Usage.oneFolder, fun _ => .idle .new⟩

/-- Somebody has an item when somebody else has cleared the directory. -/
theorem item_unchanged_cleared : ∃ b c : Config sysCalls Kernel Session, ∃ o, HasItem b 1 3 o ∧
    c.world.files.lookup [['c'], ['a']] = none ∧ c.world.data o.ino = b.world.data o.ino := by
  obtain ⟨steps, hrun, hitem, -⟩ := System.exists_run (Usage.clients (keyed ['/', 'c']))
    newCache
    ((0, some (.initCache ['/', 'c'] 0 0)) :: List.replicate 3 (0, none) ++
      (0, some (.putData ['a'] [1, 2])) :: List.replicate 12 (0, none) ++
      (1, some (.initCache ['/', 'c'] 0 0)) :: List.replicate 3 (1, none) ++
      (1, some (.get ['a'])) :: List.replicate 5 (1, none))
    (p := fun steps => hasItem (System.last newCache steps) 1 3 &&
      (System.follow (Usage.clients (keyed ['/', 'c']))
        (System.last newCache steps)
        ((0, some .clear) :: List.replicate 3 (0, none))).any fun rest =>
          ((System.last (System.last newCache steps) rest).world.files.lookup
            [['c'], ['a']]).isNone)
    (by decide)
  rw [Bool.and_eq_true] at hitem
  obtain ⟨o, ho⟩ := exists_hasItem hitem.1
  obtain ⟨rest, hrest, hgone, -⟩ := System.exists_run _ _ _ hitem.2
  refine ⟨_, _, o, ho, Option.isNone_iff_eq_none.mp hgone, ?_⟩
  exact item_unchanged (by decide) Usage.wf_oneFolder (fun _ => rfl) ⟨steps, hrun, rfl⟩ ⟨rest, hrest, rfl⟩ ho

end Runs

end Skunk.BesUtils
