import Skunk.BesUtils.MetadataStore

/-!
# The ledger of the metadata store

Each `add_responses` and `remove_responses` ends with a line in the ledger, and the lines in order should
give the keys of the responses that are in the store. They would: `step_open` keeps the two together. But
the stream that the lines go to is a member that is never opened, so there are no lines.

`recorded_iff` says this for whole runs in which nothing else goes wrong.
-/

namespace Skunk.BesUtils

open Skunk.Posix

/-! ## Replaying a ledger -/

/-- The keys that are stored after an entry. -/
def LedgerEntry.apply (entry : LedgerEntry) (keys : List Text) : List Text :=
  match entry.operation with
  | .remove => keys.filter (· ∉ entry.hashes)
  | .addDds | .addDmr => keys ++ entry.hashes

/-- The keys that are stored after all lines. -/
def replay (ledger : List LedgerLine) : List Text :=
  ledger.foldl (fun keys line => line.entry.apply keys) []

@[simp] theorem replay_append (ledger : List LedgerLine) (line : LedgerLine) :
    replay (ledger ++ [line]) = line.entry.apply (replay ledger) := by
  rw [replay, List.foldl_append]
  rfl

theorem LedgerEntry.mem_apply_add {entry : LedgerEntry} (h : entry.operation ≠ .remove)
    {keys : List Text} {k key : Text} :
    k ∈ (entry.append key).apply keys ↔ k ∈ entry.apply keys ∨ k = key := by
  unfold apply append
  dsimp only
  split
  next hop => exact absurd hop h
  all_goals simp [or_assoc]

theorem LedgerEntry.mem_apply_remove {entry : LedgerEntry} (h : entry.operation = .remove)
    {keys : List Text} {k key : Text} :
    k ∈ (entry.append key).apply keys ↔ k ∈ entry.apply keys ∧ k ≠ key := by
  unfold apply append
  dsimp only
  rw [h]
  simp [and_assoc]

/-! ## Runs -/

/-- The calls that the ledger is about. -/
inductive StoreOp
  | addDds (dds : Dds) (name : Text)
  | addDmr (dmr : Dmr) (name : Text)
  | remove (name : Text)

/-- No writer of the call fails. -/
def StoreOp.Writes : StoreOp → Prop
  | .addDds dds _ => dds.ddsResponse.throws = none ∧ dds.dasResponse.throws = none
  | .addDmr dmr _ => dmr.dmrResponse.throws = none
  | .remove _ => True

namespace Environment

def step (env : Environment) (s : MetadataStore) : StoreOp → Except StoreException Bool × MetadataStore
  | .addDds dds name => env.addResponsesDds dds name s
  | .addDmr dmr name => env.addResponsesDmr dmr name s
  | .remove name => env.removeResponses name s

/-- A run: how many calls are completed, and the store afterwards. -/
def run (env : Environment) : List StoreOp → MetadataStore → Nat × MetadataStore
  | [], s => (0, s)
  | op :: ops, s =>
    match env.step s op with
    | (.ok _, s) => ((env.run ops s).1 + 1, (env.run ops s).2)
    | (.error _, s) => env.run ops s

/-- Is there a response under this key? -/
def Stored (env : Environment) (s : MetadataStore) (key : Text) : Prop :=
  (s.disk.files (env.cache.cacheFileName key)).isSome

/-- One line for each completed call, and all lines together give the keys that are in the store. -/
structure Recorded (env : Environment) (before : List LedgerLine) (completed : Nat)
    (s : MetadataStore) : Prop where
  lines : ∃ new, s.ledger = before ++ new ∧ new.length = completed
  replayed (key : Text) : key ∈ replay s.ledger ↔ env.Stored s key

/-- Nothing goes wrong: no size to maintain, every lock is given, every file can be opened, and different
keys have different files. -/
structure Works (env : Environment) : Prop where
  unlimited : env.cache.isUnlimited = true
  locks : env.cache.LocksSucceed
  opens (item : Text) (d : Disk) : env.canOpen item d = true
  injective : Function.Injective env.cache.cacheFileName

variable {env : Environment}

/-! ## One response -/

/-- A response that is not stored yet is stored, with all that the writer writes. -/
theorem storeDapResponse_new (hworks : env.Works) {writer : StreamDap} (hwriter : writer.throws = none)
    {key : Text} {s : MetadataStore} (hnew : ¬ env.Stored s key) :
    env.storeDapResponse writer key s = (.ok true, { s with
      disk := ((s.disk.create (env.cache.cacheFileName key)).append (env.cache.cacheFileName key)
        (env.flushed (env.cache.cacheFileName key) (s.disk.create (env.cache.cacheFileName key))
          writer.written)).unlock (env.cache.cacheFileName key)
      dLedgerEntry := s.dLedgerEntry.append key }) := by
  unfold Stored at hnew
  rw [Option.not_isSome_iff_eq_none] at hnew
  simp only [storeDapResponse, hworks.locks.create _ _ hnew, hworks.opens, fillItem, hwriter,
    hworks.unlimited, env.cache.unlockAndClose_eq, Bool.not_true, Bool.false_eq_true, if_false, if_true]

theorem storeDapResponse_old (hworks : env.Works) (writer : StreamDap) {key : Text} {s : MetadataStore}
    (hold : env.Stored s key) (hlocks : s.disk.locks = []) :
    env.storeDapResponse writer key s = (.ok false, s) := by
  have hread := hworks.locks.read _ _ hold (by rw [hlocks]; exact List.not_mem_nil)
  simp only [storeDapResponse, hworks.locks.notCreated _ _ hold, hread, env.cache.unlockAndClose_eq,
    Disk.unlock_lock]

/-- The entry, put to the ledger now, would give the keys that are in the store. -/
def InProgress (env : Environment) (s : MetadataStore) : Prop :=
  ∀ key, key ∈ s.dLedgerEntry.apply (replay s.ledger) ↔ env.Stored s key

/-- What a part of a call does, before the line is written. -/
structure Advances (env : Environment) (s s' : MetadataStore) : Prop where
  ledger : s'.ledger = s.ledger
  stream : s'.of = s.of
  locks : s'.disk.locks = s.disk.locks
  operation : s'.dLedgerEntry.operation = s.dLedgerEntry.operation
  inProgress : env.InProgress s → env.InProgress s'

theorem Advances.refl (s : MetadataStore) : env.Advances s s := ⟨rfl, rfl, rfl, rfl, id⟩

theorem Advances.trans {s s' s'' : MetadataStore} (h : env.Advances s s') (h' : env.Advances s' s'') :
    env.Advances s s'' :=
  ⟨h'.ledger.trans h.ledger, h'.stream.trans h.stream, h'.locks.trans h.locks,
    h'.operation.trans h.operation, fun hs => h'.inProgress (h.inProgress hs)⟩

/-- A response is added, or is there already. -/
theorem storeUnderHash_advances (hworks : env.Works) {writer : StreamDap}
    (hwriter : writer.throws = none) (name : Text) (kind : ResponseKind) {s : MetadataStore}
    (hlocks : s.disk.locks = []) (hadd : s.dLedgerEntry.operation ≠ .remove) :
    ∃ stored s', env.storeUnderHash writer name kind s = (.ok stored, s') ∧ env.Advances s s' := by
  rw [storeUnderHash_eq]
  by_cases hold : env.Stored s (env.keyOf name kind)
  · exact ⟨false, s, storeDapResponse_old hworks writer hold hlocks, .refl s⟩
  · refine ⟨true, _, storeDapResponse_new hworks hwriter hold, rfl, rfl, by simp, rfl, ?_⟩
    intro hprogress key
    show key ∈ (s.dLedgerEntry.append (env.keyOf name kind)).apply (replay s.ledger) ↔ _
    rw [LedgerEntry.mem_apply_add hadd, hprogress key]
    unfold Stored
    dsimp only
    rw [Disk.files_unlock]
    by_cases hkey : key = env.keyOf name kind
    · subst hkey
      simp
    · have hother : env.cache.cacheFileName key ≠ env.cache.cacheFileName (env.keyOf name kind) :=
        fun heq => hkey (hworks.injective heq)
      rw [Disk.files_append hother, Disk.files_create hother]
      simp [hkey]

/-- A response is removed, or is not there. -/
theorem removeResponseHelper_advances (hworks : env.Works) (name : Text) (kind : ResponseKind)
    {s : MetadataStore} (hremove : s.dLedgerEntry.operation = .remove) :
    ∃ removed s', env.removeResponseHelper name kind s = (.ok removed, s') ∧ env.Advances s s' := by
  rw [removeResponseHelper, getHash_kind]
  dsimp only
  by_cases hold : (s.disk.files (env.cache.cacheFileName (env.keyOf name kind))).isSome = true
  · rw [if_pos hold]
    refine ⟨true, _, rfl, rfl, rfl, rfl, rfl, ?_⟩
    intro hprogress key
    show key ∈ (s.dLedgerEntry.append (env.keyOf name kind)).apply (replay s.ledger) ↔ _
    rw [LedgerEntry.mem_apply_remove hremove, hprogress key]
    unfold Stored
    dsimp only
    by_cases hkey : key = env.keyOf name kind
    · subst hkey
      simp
    · have hother : env.cache.cacheFileName key ≠ env.cache.cacheFileName (env.keyOf name kind) :=
        fun heq => hkey (hworks.injective heq)
      rw [Disk.files_remove hother]
      simp [hkey]
  · rw [if_neg hold]
    exact ⟨false, s, rfl, .refl s⟩

theorem removeKinds_advances (hworks : env.Works) (name : Text) (kinds : List ResponseKind)
    {s : MetadataStore} (hremove : s.dLedgerEntry.operation = .remove) :
    ∃ removed s', env.removeKinds name kinds s = (.ok removed, s') ∧ env.Advances s s' := by
  induction kinds generalizing s with
  | nil => exact ⟨false, s, rfl, .refl s⟩
  | cons kind kinds ih =>
      obtain ⟨first, s₁, hfirst, hadvance⟩ := removeResponseHelper_advances hworks name kind hremove
      obtain ⟨more, s₂, hmore, hadvance'⟩ := ih (hadvance.operation.trans hremove)
      refine ⟨first || more, s₂, ?_, hadvance.trans hadvance'⟩
      rw [removeKinds, hfirst]
      dsimp only
      rw [hmore]

/-! ## One call -/

/-- What a call does before it writes its line. -/
theorem call_advances (hworks : env.Works) {op : StoreOp} (hwrites : op.Writes) {s : MetadataStore}
    (hlocks : s.disk.locks = []) : ∃ operation name s', env.Advances (s.startEntry operation name) s' ∧
      ∃ result, ∀ s'', env.writeLedger s' = (.ok (), s'') → env.step s op = (.ok result, s'') := by
  cases op with
  | addDds dds name =>
      have hstart : (s.startEntry .addDds name).disk.locks = [] := hlocks
      have hop : (s.startEntry .addDds name).dLedgerEntry.operation ≠ .remove := nofun
      obtain ⟨storedDds, s₁, hdds, hadvance⟩ :=
        storeUnderHash_advances hworks hwrites.1 name .dds hstart hop
      obtain ⟨storedDas, s₂, hdas, hadvance'⟩ :=
        storeUnderHash_advances hworks hwrites.2 name .das (hadvance.locks.trans hstart)
          (hadvance.operation.trans_ne hop)
      refine ⟨_, _, s₂, hadvance.trans hadvance', storedDds && storedDas, ?_⟩
      intro s₃ hwritten
      simp only [step, addResponsesDds, hdds, hdas, hwritten]
  | addDmr dmr name =>
      have hstart : (s.startEntry .addDmr name).disk.locks = [] := hlocks
      have hop : (s.startEntry .addDmr name).dLedgerEntry.operation ≠ .remove := nofun
      obtain ⟨storedDmr, s₁, hdmr, hadvance⟩ :=
        storeUnderHash_advances hworks hwrites name .dmr hstart hop
      refine ⟨_, _, s₁, hadvance, storedDmr, ?_⟩
      intro s₂ hwritten
      simp only [step, addResponsesDmr, hdmr, hwritten]
  | remove name =>
      have hop : (s.startEntry .remove name).dLedgerEntry.operation = .remove := rfl
      obtain ⟨removed, s₁, hremoved, hadvance⟩ :=
        removeKinds_advances hworks name [.dds, .das, .dmr, .dmrpp] hop
      refine ⟨_, _, s₁, hadvance, removed, ?_⟩
      intro s₂ hwritten
      simp only [step, removeResponses, hremoved, hwritten]

/-- The lines of the ledger give the keys that are in the store. -/
def Consistent (env : Environment) (s : MetadataStore) : Prop :=
  ∀ key, key ∈ replay s.ledger ↔ env.Stored s key

theorem Consistent.start {s : MetadataStore} (h : env.Consistent s) (operation : LedgerOperation)
    (name : Text) : env.InProgress (s.startEntry operation name) := by
  intro key
  have hentry : key ∈ LedgerEntry.apply ⟨operation, name, []⟩ (replay s.ledger) ↔
      key ∈ replay s.ledger := by
    cases operation <;> simp [LedgerEntry.apply]
  exact hentry.trans (h key)

/-- The line is written, and the lock on the ledger is given back. -/
theorem writeLedger_ok (hworks : env.Works) {s : MetadataStore} (hlocks : s.disk.locks = []) :
    env.writeLedger s = (.ok (), if s.of.good then env.writeLine s else s) := by
  rcases writeLedger_cases env s with hwritten | ⟨hrefused, -⟩
  · exact hwritten
  · rw [hworks.locks.exclusive _ _ (by simp [hlocks])] at hrefused
    exact absurd rfl hrefused

/-- With the stream open, each call adds its line and the ledger goes on giving the keys. -/
theorem step_open (hworks : env.Works) {op : StoreOp} (hwrites : op.Writes) {s : MetadataStore}
    (hlocks : s.disk.locks = []) (hof : s.of = ⟨true, true⟩) (hconsistent : env.Consistent s) :
    ∃ result s', env.step s op = (.ok result, s') ∧ s'.disk.locks = [] ∧ s'.of = ⟨true, true⟩ ∧
      (∃ line, s'.ledger = s.ledger ++ [line]) ∧ env.Consistent s' := by
  obtain ⟨operation, name, s₁, hadvance, result, hstep⟩ := call_advances hworks hwrites hlocks
  have hlocks₁ : s₁.disk.locks = [] := hadvance.locks.trans hlocks
  have hof₁ : s₁.of = ⟨true, true⟩ := hadvance.stream.trans hof
  have hwritten := writeLedger_ok hworks hlocks₁
  simp only [hof₁, writeLine, if_true] at hwritten
  refine ⟨result, _, hstep _ hwritten, hlocks₁, rfl, ?_, ?_⟩
  · rw [hadvance.ledger]
    exact ⟨_, rfl⟩
  · intro key
    rw [replay_append]
    exact hadvance.inProgress (hconsistent.start operation name) key

/-- With the stream closed, each call is completed without a line. -/
theorem step_closed (hworks : env.Works) {op : StoreOp} (hwrites : op.Writes) {s : MetadataStore}
    (hlocks : s.disk.locks = []) (hof : s.of.isOpen = false) :
    ∃ result s', env.step s op = (.ok result, s') ∧ s'.disk.locks = [] ∧ s'.of.isOpen = false ∧
      s'.ledger = s.ledger := by
  obtain ⟨operation, name, s₁, hadvance, result, hstep⟩ := call_advances hworks hwrites hlocks
  have hlocks₁ : s₁.disk.locks = [] := hadvance.locks.trans hlocks
  have hof₁ : s₁.of.isOpen = false := (congrArg Ofstream.isOpen hadvance.stream).trans hof
  refine ⟨result, _, hstep _ (writeLedger_ok hworks hlocks₁), ?_⟩
  have hledger : s₁.ledger = s.ledger := hadvance.ledger
  split
  · have hclosed : env.writeLine s₁ = { s₁ with of := { s₁.of with good := false } } := by
      rw [writeLine, if_neg (by rw [hof₁]; decide)]
    rw [hclosed]
    exact ⟨hlocks₁, hof₁, hledger⟩
  · exact ⟨hlocks₁, hof₁, hledger⟩

/-! ## A whole run -/

/-- With an open ledger every response that is stored is recorded. -/
theorem run_open (hworks : env.Works) (ops : List StoreOp) (hwrites : ∀ op ∈ ops, op.Writes)
    {s : MetadataStore} (hlocks : s.disk.locks = []) (hof : s.of = ⟨true, true⟩)
    (hconsistent : env.Consistent s) :
    env.Recorded s.ledger (env.run ops s).1 (env.run ops s).2 := by
  induction ops generalizing s with
  | nil => exact ⟨⟨[], by simp [run], rfl⟩, hconsistent⟩
  | cons op ops ih =>
      rw [List.forall_mem_cons] at hwrites
      obtain ⟨result, s', hstep, hlocks', hof', ⟨line, hline⟩, hconsistent'⟩ :=
        step_open hworks hwrites.1 hlocks hof hconsistent
      obtain ⟨⟨new, hnew, hcount⟩, hreplayed⟩ := ih hwrites.2 hlocks' hof' hconsistent'
      rw [run, hstep]
      refine ⟨⟨line :: new, ?_, ?_⟩, hreplayed⟩
      · rw [hnew, hline, List.append_assoc, List.singleton_append]
      · rw [List.length_cons, hcount]

theorem run_closed (hworks : env.Works) (ops : List StoreOp) (hwrites : ∀ op ∈ ops, op.Writes)
    {s : MetadataStore} (hlocks : s.disk.locks = []) (hof : s.of.isOpen = false) :
    (env.run ops s).1 = ops.length ∧ (env.run ops s).2.ledger = s.ledger := by
  induction ops generalizing s with
  | nil => exact ⟨rfl, rfl⟩
  | cons op ops ih =>
      rw [List.forall_mem_cons] at hwrites
      obtain ⟨result, s', hstep, hlocks', hof', hledger⟩ := step_closed hworks hwrites.1 hlocks hof
      obtain ⟨hcount, hlines⟩ := ih hwrites.2 hlocks' hof'
      rw [run, hstep]
      refine ⟨?_, hlines.trans hledger⟩
      show (env.run ops s').1 + 1 = ops.length + 1
      rw [hcount]

/-- A run of a store whose lines agree with its responses is recorded exactly if nothing is done in it or
the stream is open. -/
theorem recorded_iff {env : Environment} (hworks : env.Works) (ops : List StoreOp)
    (hwrites : ∀ op ∈ ops, op.Writes) {s : MetadataStore} (hlocks : s.disk.locks = [])
    (hgood : s.of.good = true) (hconsistent : env.Consistent s) :
    env.Recorded s.ledger (env.run ops s).1 (env.run ops s).2 ↔ ops = [] ∨ s.of.isOpen = true := by
  cases hopen : s.of.isOpen with
  | true =>
      have hof : s.of = ⟨s.of.isOpen, s.of.good⟩ := rfl
      rw [hopen, hgood] at hof
      exact iff_of_true (run_open hworks ops hwrites hlocks hof hconsistent) (.inr rfl)
  | false =>
      obtain ⟨hcount, hledger⟩ := run_closed hworks ops hwrites hlocks hopen
      constructor
      · rintro ⟨⟨new, hnew, hlength⟩, -⟩
        rw [hledger, List.self_eq_append_right] at hnew
        rw [hnew, hcount] at hlength
        exact .inl (List.length_eq_zero_iff.mp hlength.symm)
      · rintro (rfl | h)
        · exact ⟨⟨[], by simp [run], rfl⟩, hconsistent⟩
        · cases h

end Environment

theorem plainEnvironment_works : plainEnvironment.Works where
  unlimited := rfl
  locks := plainCache_locksSucceed
  opens _ _ := rfl
  injective _ _ h := h

/-- With the stream open, a response that was added and removed. -/
theorem openStream_recorded : plainEnvironment.Recorded []
    (plainEnvironment.run [.addDmr ⟨⟨['r'], none⟩⟩ ['n'], .remove ['n']]
      { Environment.initStore ['l'] false emptyDisk [] with of := ⟨true, true⟩ }).1
    (plainEnvironment.run [.addDmr ⟨⟨['r'], none⟩⟩ ['n'], .remove ['n']]
      { Environment.initStore ['l'] false emptyDisk [] with of := ⟨true, true⟩ }).2 := by
  refine (Environment.recorded_iff plainEnvironment_works _ ?_
    (s := { Environment.initStore ['l'] false emptyDisk [] with of := ⟨true, true⟩ }) rfl rfl ?_).mpr
    (.inr rfl)
  · intro op hop
    rw [List.mem_cons, List.mem_singleton] at hop
    rcases hop with rfl | rfl
    · rfl
    · trivial
  · intro key
    exact iff_of_false List.not_mem_nil Bool.false_ne_true

/-- A store as it is made: a response is added, and the ledger stays empty. -/
theorem closedStream_not_recorded : ¬ plainEnvironment.Recorded []
    (plainEnvironment.run [.addDmr ⟨⟨['r'], none⟩⟩ ['n']]
      (Environment.initStore ['l'] false emptyDisk [])).1
    (plainEnvironment.run [.addDmr ⟨⟨['r'], none⟩⟩ ['n']]
      (Environment.initStore ['l'] false emptyDisk [])).2 := by
  rintro ⟨⟨new, hnew, hlength⟩, -⟩
  change [] = [] ++ new at hnew
  change new.length = 1 at hlength
  rw [← List.nil_append new, ← hnew] at hlength
  cases hlength

end Skunk.BesUtils
