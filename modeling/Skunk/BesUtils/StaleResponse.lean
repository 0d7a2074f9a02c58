import Skunk.BesUtils.MetadataStore

/-!
# Responses of datasets that have been modified

A `DMR` response that is older than its dataset is not reported as available, so that it is built anew. But
`add_responses` does not put the new one in its place: an item that exists cannot be made. So the old
response stays, and stays too old, however often this is done.
-/

namespace Skunk.BesUtils

open Skunk.Posix

namespace Environment

variable {env : Environment} {container : BesContainer} {s : MetadataStore}

/-- The response of a dataset is there, and the dataset has been modified since. -/
structure Stale (env : Environment) (container : BesContainer) (file : ItemFile)
    (s : MetadataStore) : Prop where
  item : s.disk.files (env.itemOf container.relativeName .dmr) = some file
  modified : file.mtime < s.disk.lmt container.containerType container.realName
  past : file.mtime < s.disk.now

/-! ## What is done with a dataset -/

inductive DatasetEvent
  | pass (time : Nat)
  | modify
  | check
  | rebuild (dmr : Dmr)

/-- What an event makes of the store. A lock that `is_dmr_available` returns is destroyed. -/
def happen (env : Environment) (container : BesContainer) (s : MetadataStore) :
    DatasetEvent → MetadataStore
  | .pass time => { s with disk := { s.disk with now := s.disk.now + time } }
  | .modify =>
    let lmt fileType realName :=
      if fileType = container.containerType ∧ realName = container.realName then s.disk.now
      else s.disk.lmt fileType realName
    { s with disk := { s.disk with lmt } }
  | .check =>
    match env.isDmrAvailable container s with
    | (.ok lock, s) => env.clearLock lock s
    | (.error _, s) => s
  | .rebuild dmr => (env.addResponsesDmr dmr container.relativeName s).2

/-- A response is found to be stale, built anew and added; then it is available, and what is delivered is the
new one. -/
def Refreshed (env : Environment) (container : BesContainer) (dmr : Dmr) (xmlBase : Option Text)
    (limits : Nat → Option Nat) (s : MetadataStore) : Prop :=
  let s := (env.isDmrAvailable container s).2
  let s := (env.addResponsesDmr dmr container.relativeName s).2
  let item := env.itemOf container.relativeName .dmr
  (env.isDmrAvailable container s).1 = .ok ⟨item, true⟩ ∧
    (env.writeDmrResponse container.relativeName xmlBase limits (env.isDmrAvailable container s).2).1 =
      responseText item xmlBase ⟨dmr.dmrResponse.written, limits, 0⟩

/-! ## One event -/

/-- It throws, or finds the response locked or missing, or takes a shared lock on it. -/
theorem getReadLockHelper_cases (env : Environment) (name : Text) (kind : ResponseKind)
    (s : MetadataStore) :
    (∃ e, env.getReadLockHelper name kind s = (.error e, s)) ∨
      env.getReadLockHelper name kind s = (.ok ⟨env.itemOf name kind, false⟩, s) ∨
      env.getReadLockHelper name kind s = (.ok ⟨env.itemOf name kind, true⟩,
        { s with disk := s.disk.lock (env.itemOf name kind) .shared }) := by
  unfold getReadLockHelper
  by_cases hname : name = []
  · rw [if_pos hname]
    exact .inl ⟨_, rfl⟩
  · rw [if_neg hname, getHash_kind]
    dsimp only
    rcases env.cache.getReadLock_cases (env.itemOf name kind) s.disk with
      ⟨-, hread⟩ | hread | ⟨e, hread⟩
    all_goals
      unfold itemOf at hread
      rw [hread]
    · exact .inr (.inr rfl)
    · exact .inr (.inl rfl)
    · exact .inl ⟨e, rfl⟩

/-- A stale response is never locked for the caller, and nothing has changed. -/
theorem isDmrAvailable_stale {file : ItemFile} (h : env.Stale container file s) :
    ∃ r, env.isDmrAvailable container s = (r, s) ∧ ∀ lock, r = .ok lock → lock.locked = false := by
  unfold isDmrAvailable
  rcases getReadLockHelper_cases env container.relativeName .dmr s with ⟨e, hlock⟩ | hlock | hlock
  · rw [hlock]
    exact ⟨.error e, rfl, nofun⟩
  · rw [hlock]
    refine ⟨_, rfl, ?_⟩
    rintro lock ⟨⟩
    rfl
  · have hitem : (s.disk.lock (env.itemOf container.relativeName .dmr) .shared).files
        (env.cache.cacheFileName (env.keyOf container.relativeName .dmr)) = some file := h.item
    have hreload : env.isAvailableHelper container .dmr
        (s.disk.lock (env.itemOf container.relativeName .dmr) .shared) = .ok true := by
      simp only [isAvailableHelper, getCacheLmt, getHash_kind, hitem]
      exact congrArg Except.ok (decide_eq_true h.modified)
    rw [hlock]
    simp only [hreload, if_true, clearLock, env.cache.unlockAndClose_eq, Disk.unlock_lock]
    refine ⟨_, rfl, ?_⟩
    rintro lock ⟨⟩
    rfl

theorem writeLedger_disk (env : Environment) (s : MetadataStore) : (env.writeLedger s).2.disk = s.disk := by
  rcases writeLedger_cases env s with hwritten | ⟨-, e, hfailed⟩
  · rw [hwritten]
    dsimp only
    split
    · unfold writeLine
      split <;> rfl
    · rfl
  · rw [hfailed]

/-- The item can neither be made nor is it touched. -/
theorem storeDapResponse_stale {file : ItemFile} (h : env.Stale container file s) (writer : StreamDap) :
    env.Stale container file
      (env.storeDapResponse writer (env.keyOf container.relativeName .dmr) s).2 := by
  have hold : s.disk.files (env.cache.cacheFileName (env.keyOf container.relativeName .dmr)) =
      some file := h.item
  rcases storeDapResponse_outcome env writer (env.keyOf container.relativeName .dmr) s with
    ⟨-, houtcome⟩ | ⟨-, hnew, -⟩
  · generalize env.storeDapResponse writer (env.keyOf container.relativeName .dmr) s = ended at houtcome
    cases houtcome with
    | stored disk hnew hwriter hitem hframe =>
        rw [hold] at hnew
        cases hnew
    | refused hitem => exact h
    | failed e disk hitem hframe =>
        refine ⟨hitem.trans hold, ?_, ?_⟩
        · show file.mtime < disk.lmt _ _
          rw [hframe.lmt]
          exact h.modified
        · show file.mtime < disk.now
          rw [hframe.now]
          exact h.past
  · rw [hold] at hnew
    cases hnew

theorem Stale.of_disk {file : ItemFile} {s' : MetadataStore} (h : env.Stale container file s)
    (hdisk : s'.disk = s.disk) : env.Stale container file s' := by
  refine ⟨?_, ?_, ?_⟩ <;> rw [hdisk]
  · exact h.item
  · exact h.modified
  · exact h.past

/-- Adding a response for the name leaves the stale one. -/
theorem addResponsesDmr_stale {file : ItemFile} (h : env.Stale container file s) (dmr : Dmr) :
    env.Stale container file (env.addResponsesDmr dmr container.relativeName s).2 := by
  have hstart : env.Stale container file (s.startEntry .addDmr container.relativeName) := h.of_disk rfl
  have hstored := storeDapResponse_stale hstart dmr.dmrResponse
  unfold addResponsesDmr
  dsimp only
  rw [storeUnderHash_eq]
  generalize env.storeDapResponse dmr.dmrResponse (env.keyOf container.relativeName .dmr)
    (s.startEntry .addDmr container.relativeName) = stored at hstored
  obtain ⟨r, s₁⟩ := stored
  cases r with
  | error e => exact hstored
  | ok storedDmr =>
      have hwritten := hstored.of_disk (writeLedger_disk env s₁)
      dsimp only
      generalize env.writeLedger s₁ = written at hwritten
      obtain ⟨r', s₂⟩ := written
      cases r' with
      | error e => exact hwritten
      | ok u => exact hwritten

theorem happen_stale {file : ItemFile} (h : env.Stale container file s) (event : DatasetEvent) :
    env.Stale container file (env.happen container s event) := by
  cases event with
  | pass time =>
      refine ⟨h.item, h.modified, ?_⟩
      exact h.past.trans_le (Nat.le_add_right _ _)
  | modify =>
      refine ⟨h.item, ?_, h.past⟩
      show file.mtime < if _ then _ else _
      rw [if_pos ⟨rfl, rfl⟩]
      exact h.past
  | check =>
      obtain ⟨r, hended, hlocked⟩ := isDmrAvailable_stale h
      unfold happen
      rw [hended]
      cases r with
      | error e => exact h
      | ok lock =>
          dsimp only
          rw [clearLock, if_neg (by rw [hlocked lock rfl]; decide)]
          exact h
  | rebuild dmr => exact addResponsesDmr_stale h dmr

/-! ## Any history -/

theorem foldl_happen_stale {file : ItemFile} (h : env.Stale container file s)
    (events : List DatasetEvent) :
    env.Stale container file (events.foldl (env.happen container) s) := by
  induction events generalizing s with
  | nil => exact h
  | cons event events ih => exact ih (happen_stale h event)

/-- Whatever is done with its dataset, a stale response is not replaced. -/
theorem stale_not_refreshed {file : ItemFile} (h : env.Stale container file s)
    (events : List DatasetEvent) (dmr : Dmr) (xmlBase : Option Text) (limits : Nat → Option Nat) :
    ¬ env.Refreshed container dmr xmlBase limits (events.foldl (env.happen container) s) := by
  intro hrefreshed
  have hstale := foldl_happen_stale h events
  obtain ⟨r, hended, -⟩ := isDmrAvailable_stale hstale
  unfold Refreshed at hrefreshed
  rw [hended] at hrefreshed
  dsimp only at hrefreshed
  obtain ⟨r', hended', hlocked⟩ := isDmrAvailable_stale (addResponsesDmr_stale hstale dmr)
  rw [hended'] at hrefreshed
  cases hlocked _ hrefreshed.1

end Environment

/-- A dataset that was modified at five, with a response of zero, at ten. -/
def staleStore : MetadataStore :=
  Environment.initStore ['l'] false
    { files := fun item => if item = plainEnvironment.itemOf ['n'] .dmr then some ⟨['o'], 0⟩ else none
      locks := []
      lmt := fun _ _ => 5
      now := 10 } []

/-- Checked, rebuilt and modified once more, the dataset has no new response. -/
theorem staleStore_not_refreshed :
    ¬ plainEnvironment.Refreshed ⟨['r'], ['n'], ['t']⟩ ⟨⟨['d'], none⟩⟩ none (fun _ => some 0)
      ([.check, .rebuild ⟨⟨['d'], none⟩⟩, .pass 7, .modify].foldl
        (plainEnvironment.happen ⟨['r'], ['n'], ['t']⟩) staleStore) := by
  have hstale : plainEnvironment.Stale ⟨['r'], ['n'], ['t']⟩ ⟨['o'], 0⟩ staleStore :=
    ⟨rfl, by decide, by decide⟩
  exact Environment.stale_not_refreshed hstale _ _ _ _

/-- The rebuilt response is refused, the old one stays, and is not available. -/
theorem rebuilt_response_refused :
    (plainEnvironment.addResponsesDmr ⟨⟨['d'], none⟩⟩ ['n'] staleStore).1 = .ok false ∧
      (plainEnvironment.addResponsesDmr ⟨⟨['d'], none⟩⟩ ['n'] staleStore).2.disk.files
        (plainEnvironment.itemOf ['n'] .dmr) = some ⟨['o'], 0⟩ ∧
      (plainEnvironment.isDmrAvailable ⟨['r'], ['n'], ['t']⟩
        (plainEnvironment.addResponsesDmr ⟨⟨['d'], none⟩⟩ ['n'] staleStore).2).1 =
          .ok ⟨plainEnvironment.itemOf ['n'] .dmr, false⟩ :=
  ⟨rfl, rfl, rfl⟩

end Skunk.BesUtils
