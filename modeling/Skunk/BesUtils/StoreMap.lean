import Skunk.BesUtils.StoreKeys

/-!
# What the metadata store is for

A map: to each dataset and kind of response belongs a text, or none. Adding does not replace a text,
removing takes all texts of a dataset away. `Responses` is this map, and the store refines it
(`step_refines`, `run_refines`) as long as nothing goes wrong but the writers; a response is delivered as the
text of the map (`writeDmrResponse_run`).

Whatever goes wrong with locks, purges and writers, a response is whole: every text that is in the store has
been written from beginning to end for the dataset and the kind that it is found by (`run_whole`). That all of
it gets into the file is a condition, `Flushes`, since `store_dap_response` does not ask its stream.
-/

namespace Skunk.BesUtils

open Skunk.Posix

/-! ## The map -/

/-- The responses of the datasets; names are told apart up to a slash in front. -/
abbrev Responses : Type := Text → ResponseKind → Option Text

namespace Responses

/-- One text is put where there is none yet. -/
def put (m : Responses) (name : Text) (kind : ResponseKind) (writer : StreamDap) :
    Except StoreException Bool × Responses :=
  match m (withSlash name) kind, writer.throws with
  | some _, _ => (.ok false, m)
  | none, some e => (.error e, m)
  | none, none =>
    (.ok true, fun other kind' =>
      if other = withSlash name ∧ kind' = kind then some writer.written else m other kind')

def erase (m : Responses) (name : Text) : Responses :=
  fun other kind => if other = withSlash name then none else m other kind

def eraseKind (m : Responses) (name : Text) (kind : ResponseKind) : Responses :=
  fun other kind' => if other = withSlash name ∧ kind' = kind then none else m other kind'

/-- One after the other is taken away: was there any? -/
def removeKinds (m : Responses) (name : Text) : List ResponseKind → Bool × Responses
  | [] => (false, m)
  | kind :: kinds =>
    let more := (m.eraseKind name kind).removeKinds name kinds
    ((m (withSlash name) kind).isSome || more.1, more.2)

def has (m : Responses) (name : Text) : Bool :=
  [.dds, .das, .dmr, .dmrpp].any fun kind => (m (withSlash name) kind).isSome

theorem removeKinds_fst (m : Responses) (name : Text) :
    (m.removeKinds name [.dds, .das, .dmr, .dmrpp]).1 = m.has name := by
  simp [removeKinds, eraseKind, has]

theorem removeKinds_snd (m : Responses) (name : Text) :
    (m.removeKinds name [.dds, .das, .dmr, .dmrpp]).2 = m.erase name := by
  funext other kind
  by_cases hname : other = withSlash name
  · cases kind <;> simp [removeKinds, eraseKind, erase, hname]
  · simp [removeKinds, eraseKind, erase, hname]

def step (m : Responses) : StoreOp → Except StoreException Bool × Responses
  | .addDds dds name =>
    match m.put name .dds dds.ddsResponse with
    | (.error e, m) => (.error e, m)
    | (.ok storedDds, m) =>
      match m.put name .das dds.dasResponse with
      | (.error e, m) => (.error e, m)
      | (.ok storedDas, m) => (.ok (storedDds && storedDas), m)
  | .addDmr dmr name => m.put name .dmr dmr.dmrResponse
  | .remove name => (.ok (m.has name), m.erase name)

def run (m : Responses) (ops : List StoreOp) : Responses := ops.foldl (fun m op => (m.step op).2) m

end Responses

/-! ## The store refines the map -/

namespace Environment

variable {env : Environment} {m : Responses} {s : MetadataStore}

theorem keyOf_withSlash (name : Text) (kind : ResponseKind) :
    env.keyOf name kind = env.hash256 (withSlash name ++ kind.suffix) := by
  by_cases hname : name = []
  · subst hname
    cases kind <;> rfl
  · exact keyOf_eq hname kind

/-- Each response has a file of its own. -/
theorem itemOf_eq_iff (hfile : Function.Injective env.cache.cacheFileName)
    (hhash : Function.Injective env.hash256) {name name' : Text} {kind kind' : ResponseKind} :
    env.itemOf name kind = env.itemOf name' kind' ↔ withSlash name = withSlash name' ∧ kind = kind' := by
  rw [itemOf, itemOf, hfile.eq_iff, keyOf_withSlash, keyOf_withSlash, hhash.eq_iff,
    ResponseKind.append_suffix_inj]
  exact and_comm

/-- The texts in the files are those of the map, and no lock is held. -/
structure Refines (env : Environment) (m : Responses) (s : MetadataStore) : Prop where
  locks : s.disk.locks = []
  texts : ∀ name kind, (s.disk.files (env.itemOf name kind)).map ItemFile.text = m (withSlash name) kind

theorem Refines.of_disk {s' : MetadataStore} (h : env.Refines m s) (hdisk : s'.disk = s.disk) :
    env.Refines m s' := by
  constructor
  · rw [hdisk]
    exact h.locks
  · rw [hdisk]
    exact h.texts

/-- When the writer throws, the file that was begun is gone. -/
theorem storeDapResponse_throws (hworks : env.Works) {writer : StreamDap} {e : StoreException}
    (hwriter : writer.throws = some e) {key : Text} (hnew : ¬ env.Stored s key) :
    env.storeDapResponse writer key s = (.error e, { s with
      disk := (((s.disk.create (env.cache.cacheFileName key)).append (env.cache.cacheFileName key)
        (env.flushed (env.cache.cacheFileName key) (s.disk.create (env.cache.cacheFileName key))
          writer.written)).remove (env.cache.cacheFileName key)).unlock (env.cache.cacheFileName key) }) := by
  unfold Stored at hnew
  rw [Option.not_isSome_iff_eq_none] at hnew
  simp only [storeDapResponse, hworks.locks.create _ _ hnew, hworks.opens, fillItem, hwriter,
    env.cache.unlockAndClose_eq, env.cache.purgeFile_eq, Bool.not_true, Bool.false_eq_true, if_false]

/-- One response. -/
theorem put_refines (hworks : env.Works) (hflush : env.Flushes)
    (hhash : Function.Injective env.hash256) (h : env.Refines m s) (writer : StreamDap)
    (name : Text) (kind : ResponseKind) :
    (env.storeUnderHash writer name kind s).1 = (m.put name kind writer).1 ∧
      env.Refines (m.put name kind writer).2 (env.storeUnderHash writer name kind s).2 := by
  rw [storeUnderHash_eq]
  have htext := h.texts name kind
  cases hm : m (withSlash name) kind with
  | some text =>
      have hold : env.Stored s (env.keyOf name kind) := by
        rw [hm] at htext
        obtain ⟨file, hfile, -⟩ := Option.map_eq_some_iff.mp htext
        exact Option.isSome_iff_exists.mpr ⟨file, hfile⟩
      rw [storeDapResponse_old hworks writer hold h.locks]
      simpa only [Responses.put, hm, true_and] using h
  | none =>
      have hnone : s.disk.files (env.itemOf name kind) = none := by
        rw [hm] at htext
        exact Option.map_eq_none_iff.mp htext
      have hnew : ¬ env.Stored s (env.keyOf name kind) := by
        rw [Stored, Option.not_isSome_iff_eq_none]
        exact hnone
      have hfile : env.cache.cacheFileName (env.keyOf name kind) = env.itemOf name kind := rfl
      cases hwriter : writer.throws with
      | some e =>
          rw [storeDapResponse_throws hworks hwriter hnew]
          simp only [Responses.put, hm, hwriter, hfile, true_and]
          constructor
          · simpa using h.locks
          · intro name' kind'
            rw [← h.texts name' kind', Disk.files_unlock]
            by_cases hitem : env.itemOf name' kind' = env.itemOf name kind
            · rw [hitem, hnone]
              exact congrArg _ Disk.files_remove_self
            · rw [Disk.files_remove hitem, Disk.files_append hitem, Disk.files_create hitem]
      | none =>
          rw [storeDapResponse_new hworks hwriter hnew, hflush]
          simp only [Responses.put, hm, hwriter, hfile, true_and]
          constructor
          · simpa using h.locks
          · intro name' kind'
            rw [Disk.files_unlock]
            by_cases hitem : env.itemOf name' kind' = env.itemOf name kind
            · rw [if_pos ((itemOf_eq_iff hworks.injective hhash).mp hitem), hitem]
              exact congrArg _ Disk.files_append_create
            · rw [if_neg fun heq => hitem ((itemOf_eq_iff hworks.injective hhash).mpr heq),
                Disk.files_append hitem, Disk.files_create hitem]
              exact h.texts name' kind'

/-- The line of the ledger changes no response. -/
theorem Refines.writeLedger (hworks : env.Works) (h : env.Refines m s) :
    (env.writeLedger s).1 = .ok () ∧ env.Refines m (env.writeLedger s).2 :=
  ⟨congrArg Prod.fst (writeLedger_ok hworks h.locks), h.of_disk (writeLedger_disk env s)⟩

/-- One text is taken away. -/
theorem removeResponseHelper_refines (hworks : env.Works) (hhash : Function.Injective env.hash256)
    (h : env.Refines m s) (name : Text) (kind : ResponseKind) :
    (env.removeResponseHelper name kind s).1 = .ok (m (withSlash name) kind).isSome ∧
      env.Refines (m.eraseKind name kind) (env.removeResponseHelper name kind s).2 := by
  have htext := h.texts name kind
  have hfile : env.cache.cacheFileName (env.keyOf name kind) = env.itemOf name kind := rfl
  rw [removeResponseHelper, getHash_kind]
  dsimp only
  rw [hfile, ← htext, Option.isSome_map]
  cases hitem : s.disk.files (env.itemOf name kind) with
  | none =>
      rw [Option.isSome_none, if_neg (by decide)]
      refine ⟨rfl, h.locks, ?_⟩
      intro name' kind'
      rw [h.texts name' kind', Responses.eraseKind]
      split
      next heq =>
        rw [heq.1, heq.2, ← htext, hitem]
        rfl
      · rfl
  | some file =>
      rw [Option.isSome_some, if_pos rfl]
      refine ⟨rfl, h.locks, ?_⟩
      intro name' kind'
      show ((s.disk.remove (env.itemOf name kind)).files (env.itemOf name' kind')).map ItemFile.text = _
      rw [Responses.eraseKind]
      by_cases heq : env.itemOf name' kind' = env.itemOf name kind
      · rw [if_pos ((itemOf_eq_iff hworks.injective hhash).mp heq), heq, Disk.files_remove_self]
        rfl
      · rw [if_neg fun hsame => heq ((itemOf_eq_iff hworks.injective hhash).mpr hsame), Disk.files_remove heq]
        exact h.texts name' kind'

/-- Removing kinds of responses refines removing them from the map. -/
theorem removeKinds_refines (hworks : env.Works) (hhash : Function.Injective env.hash256)
    (h : env.Refines m s) (name : Text) (kinds : List ResponseKind) :
    (env.removeKinds name kinds s).1 = .ok (m.removeKinds name kinds).1 ∧
      env.Refines (m.removeKinds name kinds).2 (env.removeKinds name kinds s).2 := by
  induction kinds generalizing m s with
  | nil => exact ⟨rfl, h⟩
  | cons kind kinds ih =>
      have hfirst := removeResponseHelper_refines hworks hhash h name kind
      rw [removeKinds]
      generalize env.removeResponseHelper name kind s = ended at hfirst
      obtain ⟨result, s'⟩ := ended
      obtain ⟨rfl, h'⟩ := hfirst
      have hrest := ih h'
      dsimp only
      generalize env.removeKinds name kinds s' = ended at hrest
      obtain ⟨result, s''⟩ := ended
      obtain ⟨rfl, h''⟩ := hrest
      exact ⟨rfl, h''⟩

/-- Each call answers as the map does, and goes on as the map does. -/
theorem step_refines (hworks : env.Works) (hflush : env.Flushes)
    (hhash : Function.Injective env.hash256) (h : env.Refines m s) (op : StoreOp) :
    (env.step s op).1 = (m.step op).1 ∧ env.Refines (m.step op).2 (env.step s op).2 := by
  cases op with
  | addDds dds name =>
      have h₀ : env.Refines m (s.startEntry .addDds name) := h.of_disk rfl
      have hdds := put_refines hworks hflush hhash h₀ dds.ddsResponse name .dds
      show (env.addResponsesDds dds name s).1 = _ ∧ env.Refines _ (env.addResponsesDds dds name s).2
      rw [addResponsesDds, Responses.step]
      generalize env.storeUnderHash dds.ddsResponse name .dds (s.startEntry .addDds name) = ended at hdds
      generalize m.put name .dds dds.ddsResponse = wanted at hdds ⊢
      obtain ⟨result, s₁⟩ := ended
      obtain ⟨answer, m₁⟩ := wanted
      obtain ⟨rfl, h₁⟩ := hdds
      cases result with
      | error e => exact ⟨rfl, h₁⟩
      | ok storedDds =>
          have hdas := put_refines hworks hflush hhash h₁ dds.dasResponse name .das
          dsimp only
          generalize env.storeUnderHash dds.dasResponse name .das s₁ = ended at hdas
          generalize m₁.put name .das dds.dasResponse = wanted at hdas ⊢
          obtain ⟨result, s₂⟩ := ended
          obtain ⟨answer, m₂⟩ := wanted
          obtain ⟨rfl, h₂⟩ := hdas
          cases result with
          | error e => exact ⟨rfl, h₂⟩
          | ok storedDas =>
              have hledger := h₂.writeLedger hworks
              dsimp only
              generalize env.writeLedger s₂ = ended at hledger
              obtain ⟨result, s₃⟩ := ended
              obtain ⟨rfl, h₃⟩ := hledger
              exact ⟨rfl, h₃⟩
  | addDmr dmr name =>
      have h₀ : env.Refines m (s.startEntry .addDmr name) := h.of_disk rfl
      have hdmr := put_refines hworks hflush hhash h₀ dmr.dmrResponse name .dmr
      show (env.addResponsesDmr dmr name s).1 = _ ∧ env.Refines _ (env.addResponsesDmr dmr name s).2
      rw [addResponsesDmr, Responses.step]
      generalize env.storeUnderHash dmr.dmrResponse name .dmr (s.startEntry .addDmr name) = ended at hdmr
      generalize m.put name .dmr dmr.dmrResponse = wanted at hdmr ⊢
      obtain ⟨result, s₁⟩ := ended
      obtain ⟨answer, m₁⟩ := wanted
      obtain ⟨rfl, h₁⟩ := hdmr
      cases result with
      | error e => exact ⟨rfl, h₁⟩
      | ok storedDmr =>
          have hledger := h₁.writeLedger hworks
          dsimp only
          generalize env.writeLedger s₁ = ended at hledger
          obtain ⟨result, s₂⟩ := ended
          obtain ⟨rfl, h₂⟩ := hledger
          exact ⟨rfl, h₂⟩
  | remove name =>
      have h₀ : env.Refines m (s.startEntry .remove name) := h.of_disk rfl
      have hremoved := removeKinds_refines hworks hhash h₀ name [.dds, .das, .dmr, .dmrpp]
      show (env.removeResponses name s).1 = _ ∧ env.Refines _ (env.removeResponses name s).2
      rw [removeResponses, Responses.step, ← Responses.removeKinds_fst, ← Responses.removeKinds_snd]
      dsimp only
      generalize env.removeKinds name [.dds, .das, .dmr, .dmrpp] (s.startEntry .remove name) = ended
        at hremoved
      obtain ⟨result, s₁⟩ := ended
      obtain ⟨rfl, h₁⟩ := hremoved
      have hledger := h₁.writeLedger hworks
      dsimp only
      generalize env.writeLedger s₁ = ended at hledger
      obtain ⟨result, s₂⟩ := ended
      obtain ⟨rfl, h₂⟩ := hledger
      exact ⟨rfl, h₂⟩

theorem run_snd (ops : List StoreOp) (op : StoreOp) (s : MetadataStore) :
    (env.run (op :: ops) s).2 = (env.run ops (env.step s op).2).2 := by
  rw [run]
  generalize env.step s op = ended
  obtain ⟨_ | result, s'⟩ := ended
  · rfl
  · rfl

theorem refines_run (hworks : env.Works) (hflush : env.Flushes)
    (hhash : Function.Injective env.hash256) (h : env.Refines m s) (ops : List StoreOp) :
    env.Refines (m.run ops) (env.run ops s).2 := by
  induction ops generalizing m s with
  | nil => exact h
  | cons op ops ih =>
      rw [run_snd]
      exact ih (step_refines hworks hflush hhash h op).2

/-- After any calls the texts are those of the map, and the next call answers as the map does. -/
theorem run_refines (hworks : env.Works) (hflush : env.Flushes)
    (hhash : Function.Injective env.hash256) (h : env.Refines m s) (ops : List StoreOp) :
    env.Refines (m.run ops) (env.run ops s).2 ∧
      ∀ op, (env.step (env.run ops s).2 op).1 = ((m.run ops).step op).1 := by
  have hrun := refines_run hworks hflush hhash h ops
  exact ⟨hrun, fun op => (step_refines hworks hflush hhash hrun op).1⟩

/-! ## What is delivered -/

/-- A response in the store is locked, read and unlocked. -/
theorem writeDmrResponse_some (hworks : env.Works) (h : env.Refines m s) {name text : Text}
    (htext : m (withSlash name) .dmr = some text) (xmlBase : Option Text) (limits : Nat → Option Nat) :
    env.writeDmrResponse name xmlBase limits s =
      (responseText (env.itemOf name .dmr) xmlBase ⟨text, limits, 0⟩, s) := by
  obtain ⟨file, hfile, rfl⟩ := Option.map_eq_some_iff.mp ((h.texts name .dmr).trans htext)
  have hread := hworks.locks.read (env.itemOf name .dmr) s.disk (by simp [hfile]) (by simp [h.locks])
  have hitem : env.cache.cacheFileName (env.keyOf name .dmr) = env.itemOf name .dmr := rfl
  simp only [writeDmrResponse, getHash_kind, hitem, hread, env.cache.unlockAndClose_eq, Disk.unlock_lock]
  simp [hfile]

/-- One that is not there cannot be locked. -/
theorem writeDmrResponse_none (h : env.Refines m s) {name : Text}
    (hnone : m (withSlash name) .dmr = none) (xmlBase : Option Text) (limits : Nat → Option Nat) :
    (env.writeDmrResponse name xmlBase limits s).2 = s ∧
      ∃ e, (env.writeDmrResponse name xmlBase limits s).1 = .error e := by
  have hfile : s.disk.files (env.itemOf name .dmr) = none := by
    apply Option.map_eq_none_iff.mp
    rw [h.texts, hnone]
  have hitem : env.cache.cacheFileName (env.keyOf name .dmr) = env.itemOf name .dmr := rfl
  simp only [writeDmrResponse, getHash_kind, hitem]
  rcases env.cache.getReadLock_cases (env.itemOf name .dmr) s.disk with ⟨hsome, -⟩ | hread | ⟨e, hread⟩
  · rw [hfile] at hsome
    cases hsome
  · rw [hread]
    exact ⟨rfl, _, rfl⟩
  · rw [hread]
    exact ⟨rfl, e, rfl⟩

/-- After any calls, the `DMR` response of a dataset is delivered exactly as the map has it, however few
characters each `read` gives; if there is none, the call fails. The store is as before. -/
theorem writeDmrResponse_run (hworks : env.Works) (hflush : env.Flushes)
    (hhash : Function.Injective env.hash256) (h : env.Refines m s)
    (ops : List StoreOp) (name : Text) (limits : Nat → Option Nat)
    (hlimits : ∀ k, (limits k).isSome) :
    (env.writeDmrResponse name none limits (env.run ops s).2).2 = (env.run ops s).2 ∧
      ∀ text, (env.writeDmrResponse name none limits (env.run ops s).2).1 = .ok text ↔
        m.run ops (withSlash name) .dmr = some text := by
  have hrun := refines_run hworks hflush hhash h ops
  cases hm : m.run ops (withSlash name) .dmr with
  | none =>
      obtain ⟨hsame, e, herror⟩ := writeDmrResponse_none hrun hm none limits
      refine ⟨hsame, ?_⟩
      intro text
      rw [herror]
      simp
  | some text =>
      rw [writeDmrResponse_some hworks hrun hm]
      refine ⟨rfl, ?_⟩
      intro text'
      have hreadable : Descriptor.Readable ⟨text, limits, 0⟩ := hlimits
      obtain ⟨fd', htransfer, -, -⟩ := transferBytes_ok hreadable
      simp [responseText, htransfer, Except.map, Except.mapError]

end Environment

/-- A response is added, one is refused and one is not written, all are removed, and one is added again. -/
def someCalls : List StoreOp :=
  [.addDmr ⟨⟨['d'], none⟩⟩ ['n'], .addDds ⟨⟨['e'], none⟩, ⟨['f'], some .thrown⟩⟩ ['n'],
    .addDmr ⟨⟨['g'], none⟩⟩ ['/', 'n'], .remove ['n'], .addDmr ⟨⟨['h'], none⟩⟩ ['n']]

/-- The empty store goes with the empty map. -/
theorem run_refines_someCalls :
    plainEnvironment.Refines (Responses.run (fun _ _ => none) someCalls)
        (plainEnvironment.run someCalls (Environment.initStore ['l'] false emptyDisk [])).2 ∧
      ∀ op, (plainEnvironment.step
          (plainEnvironment.run someCalls (Environment.initStore ['l'] false emptyDisk [])).2 op).1 =
        ((Responses.run (fun _ _ => none) someCalls).step op).1 :=
  Environment.run_refines plainEnvironment_works (fun _ _ _ => rfl) Function.injective_id
    ⟨rfl, fun _ _ => rfl⟩ _

/-- It is delivered character by character. -/
theorem writeDmrResponse_run_someCalls :
    (plainEnvironment.writeDmrResponse ['n'] none (fun _ => some 0)
        (plainEnvironment.run someCalls (Environment.initStore ['l'] false emptyDisk [])).2).2 =
        (plainEnvironment.run someCalls (Environment.initStore ['l'] false emptyDisk [])).2 ∧
      ∀ text, (plainEnvironment.writeDmrResponse ['n'] none (fun _ => some 0)
          (plainEnvironment.run someCalls (Environment.initStore ['l'] false emptyDisk [])).2).1 = .ok text ↔
        Responses.run (fun _ _ => none) someCalls (withSlash ['n']) .dmr = some text :=
  Environment.writeDmrResponse_run plainEnvironment_works (fun _ _ _ => rfl) Function.injective_id
    ⟨rfl, fun _ _ => rfl⟩ _ _ _ fun _ => rfl

/-! ## Whole responses -/

/-- What a call has written of a kind. -/
def StoreOp.response : StoreOp → ResponseKind → Option StreamDap
  | .addDds dds _, .dds => some dds.ddsResponse
  | .addDds dds _, .das => some dds.dasResponse
  | .addDmr dmr _, .dmr => some dmr.dmrResponse
  | _, _ => none

namespace Environment

/-- The call has written this file, from beginning to end. -/
def Made (env : Environment) (op : StoreOp) (item : Text) (file : ItemFile) : Prop :=
  ∃ kind writer, op.response kind = some writer ∧ writer.throws = none ∧ item = env.itemOf op.name kind ∧
    file.text = writer.written

/-- New files are as `p` says; others may be lost. -/
def NewOnly (p : Text → ItemFile → Prop) (d d' : Disk) : Prop :=
  ∀ item file, d'.files item = some file → d.files item = some file ∨ p item file

theorem NewOnly.of_files {p : Text → ItemFile → Prop} {d d' : Disk} (h : d'.files = d.files) :
    NewOnly p d d' := by
  intro item file hfile
  rw [h] at hfile
  exact .inl hfile

theorem NewOnly.trans {p : Text → ItemFile → Prop} {d d' d'' : Disk} (h : NewOnly p d d')
    (h' : NewOnly p d' d'') : NewOnly p d d'' := by
  intro item file hfile
  rcases h' item file hfile with hold | hnew
  · exact h item file hold
  · exact .inr hnew

theorem NewOnly.mono {p q : Text → ItemFile → Prop} {d d' : Disk} (h : NewOnly p d d')
    (hpq : ∀ item file, p item file → q item file) : NewOnly q d d' := by
  intro item file hfile
  exact (h item file hfile).imp_right (hpq item file)

variable {env : Environment}

/-- Only a file for this dataset and kind is new, and it has the whole text of a writer that did not throw. -/
theorem storeUnderHash_newOnly (hopen : ∀ item d, env.canOpen item d = true) (hflush : env.Flushes)
    (writer : StreamDap) (name : Text) (kind : ResponseKind) (s : MetadataStore) :
    NewOnly (fun item file => writer.throws = none ∧ item = env.itemOf name kind ∧
      file.text = writer.written) s.disk (env.storeUnderHash writer name kind s).2.disk := by
  rw [storeUnderHash_eq]
  rcases storeDapResponse_outcome env writer (env.keyOf name kind) s with ⟨-, houtcome⟩ | ⟨hnot, -⟩
  · generalize env.storeDapResponse writer (env.keyOf name kind) s = ended at houtcome
    intro item file hfile
    cases houtcome with
    | stored disk hnew hwriter hitem hframe =>
        rw [hflush] at hitem
        by_cases hother : item = env.cache.cacheFileName (env.keyOf name kind)
        · subst hother
          obtain rfl := Option.some.inj (hitem.symm.trans hfile)
          exact .inr ⟨hwriter, rfl, rfl⟩
        · rcases hframe.files item hother with hsame | ⟨-, hgone⟩
          · exact .inl (hsame.symm.trans hfile)
          · simp [hgone] at hfile
    | refused hitem => exact .inl hfile
    | failed e disk hitem hframe =>
        rcases hframe.kept hitem item with hsame | ⟨-, hgone⟩
        · exact .inl (hsame.symm.trans hfile)
        · simp [hgone] at hfile
  · exact absurd (fun _ => hopen _ _) hnot

theorem removeKinds_newOnly (name : Text) (kinds : List ResponseKind) (s : MetadataStore) :
    NewOnly (fun _ _ => False) s.disk (env.removeKinds name kinds s).2.disk := by
  induction kinds generalizing s with
  | nil => exact .of_files rfl
  | cons kind kinds ih =>
      have hfirst : NewOnly (fun _ _ => False) s.disk (env.removeResponseHelper name kind s).2.disk := by
        rw [removeResponseHelper, getHash_kind]
        dsimp only
        split
        · intro item file hfile
          left
          by_cases hitem : item = env.cache.cacheFileName (env.keyOf name kind)
          · subst hitem
            simp at hfile
          · exact (Disk.files_remove hitem).symm.trans hfile
        · exact .of_files rfl
      rw [removeKinds]
      generalize env.removeResponseHelper name kind s = ended at hfirst
      obtain ⟨_ | removed, s'⟩ := ended
      · exact hfirst
      · have hrest := hfirst.trans (ih s')
        dsimp only
        generalize env.removeKinds name kinds s' = ended at hrest
        obtain ⟨_ | more, s''⟩ := ended <;> exact hrest

theorem writeLedger_newOnly (env : Environment) (p : Text → ItemFile → Prop) (s : MetadataStore) :
    NewOnly p s.disk (env.writeLedger s).2.disk :=
  .of_files (congrArg Disk.files (writeLedger_disk env s))

/-- The new files of a call are those that it has written. -/
theorem step_newOnly (hopen : ∀ item d, env.canOpen item d = true) (hflush : env.Flushes)
    (op : StoreOp) (s : MetadataStore) :
    NewOnly (env.Made op) s.disk (env.step s op).2.disk := by
  cases op with
  | addDds dds name =>
      have hdds : NewOnly (env.Made (.addDds dds name)) s.disk
          (env.storeUnderHash dds.ddsResponse name .dds (s.startEntry .addDds name)).2.disk :=
        (storeUnderHash_newOnly hopen hflush _ name .dds (s.startEntry .addDds name)).mono
          fun _ _ h => ⟨.dds, _, rfl, h⟩
      show NewOnly _ s.disk (env.addResponsesDds dds name s).2.disk
      rw [addResponsesDds]
      generalize env.storeUnderHash dds.ddsResponse name .dds (s.startEntry .addDds name) = ended at hdds
      obtain ⟨_ | storedDds, s₁⟩ := ended
      · exact hdds
      · have hdas := hdds.trans ((storeUnderHash_newOnly hopen hflush dds.dasResponse name .das s₁).mono
          fun _ _ h => ⟨.das, _, rfl, h⟩)
        dsimp only
        generalize env.storeUnderHash dds.dasResponse name .das s₁ = ended at hdas
        obtain ⟨_ | storedDas, s₂⟩ := ended
        · exact hdas
        · have hwritten := hdas.trans (writeLedger_newOnly env _ s₂)
          dsimp only
          generalize env.writeLedger s₂ = ended at hwritten
          obtain ⟨_ | u, s₃⟩ := ended <;> exact hwritten
  | addDmr dmr name =>
      have hdmr : NewOnly (env.Made (.addDmr dmr name)) s.disk
          (env.storeUnderHash dmr.dmrResponse name .dmr (s.startEntry .addDmr name)).2.disk :=
        (storeUnderHash_newOnly hopen hflush _ name .dmr (s.startEntry .addDmr name)).mono
          fun _ _ h => ⟨.dmr, _, rfl, h⟩
      show NewOnly _ s.disk (env.addResponsesDmr dmr name s).2.disk
      rw [addResponsesDmr]
      generalize env.storeUnderHash dmr.dmrResponse name .dmr (s.startEntry .addDmr name) = ended at hdmr
      obtain ⟨_ | storedDmr, s₁⟩ := ended
      · exact hdmr
      · have hwritten := hdmr.trans (writeLedger_newOnly env _ s₁)
        dsimp only
        generalize env.writeLedger s₁ = ended at hwritten
        obtain ⟨_ | u, s₂⟩ := ended <;> exact hwritten
  | remove name =>
      have hremoved : NewOnly (env.Made (.remove name)) s.disk
          (env.removeKinds name [.dds, .das, .dmr, .dmrpp] (s.startEntry .remove name)).2.disk :=
        (removeKinds_newOnly name _ (s.startEntry .remove name)).mono fun _ _ h => h.elim
      show NewOnly _ s.disk (env.removeResponses name s).2.disk
      rw [removeResponses]
      generalize env.removeKinds name [.dds, .das, .dmr, .dmrpp] (s.startEntry .remove name) = ended
        at hremoved
      obtain ⟨_ | removed, s₁⟩ := ended
      · exact hremoved
      · have hwritten := hremoved.trans (writeLedger_newOnly env _ s₁)
        dsimp only
        generalize env.writeLedger s₁ = ended at hwritten
        obtain ⟨_ | u, s₂⟩ := ended <;> exact hwritten

/-- Whatever fails in a run, of the locks, the purges and the writers: as long as all of what is written to a file
gets there, a response that is in the store was
there before, or one of the calls has written all of it, for the dataset and kind that it is found by. -/
theorem run_whole (hopen : ∀ item d, env.canOpen item d = true) (hflush : env.Flushes) (ops : List StoreOp)
    (s : MetadataStore) {name : Text} {kind : ResponseKind} {file : ItemFile}
    (h : (env.run ops s).2.disk.files (env.itemOf name kind) = some file) :
    s.disk.files (env.itemOf name kind) = some file ∨
      ∃ op ∈ ops, env.Made op (env.itemOf name kind) file := by
  have hrun : NewOnly (fun item file => ∃ op ∈ ops, env.Made op item file) s.disk
      (env.run ops s).2.disk := by
    clear h
    induction ops generalizing s with
    | nil => exact .of_files rfl
    | cons op ops ih =>
        have hfirst : NewOnly (fun item file => ∃ op' ∈ op :: ops, env.Made op' item file) s.disk
            (env.step s op).2.disk :=
          (step_newOnly hopen hflush op s).mono fun _ _ hmade => ⟨op, by simp, hmade⟩
        rw [run_snd]
        apply hfirst.trans
        apply (ih (env.step s op).2).mono
        intro item file ⟨op', hop, hmade⟩
        exact ⟨op', by simp [hop], hmade⟩
  exact hrun _ _ h

end Environment

/-- The `DAS` cannot be written; the `DDS` response is whole, and the call has written it. -/
theorem run_whole_someCalls :
    emptyDisk.files (plainEnvironment.itemOf ['n'] .dds) = some ⟨['e'], 0⟩ ∨
      ∃ op ∈ someCalls.take 3, plainEnvironment.Made op (plainEnvironment.itemOf ['n'] .dds) ⟨['e'], 0⟩ :=
  Environment.run_whole (fun _ _ => rfl) (fun _ _ _ => rfl) _
    (Environment.initStore ['l'] false emptyDisk []) rfl

end Skunk.BesUtils
