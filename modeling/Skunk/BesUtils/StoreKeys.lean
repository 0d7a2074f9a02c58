import Skunk.BesUtils.Ledger
import Skunk.BesUtils.StaleResponse

/-!
# The keys of the metadata store

What is hashed is the name of a dataset with a slash in front and the suffix of a kind behind. No suffix
ends in another one, so both can be read off the text (`append_suffix_inj`), whatever the name is. So
different responses have different keys (`getHash_eq_iff`), and no call touches the responses of another
dataset (`run_otherDataset`).
-/

namespace Skunk.BesUtils

open Skunk.Posix

/-! ## Names and suffixes -/

def withSlash (name : Text) : Text := if name.head? = some '/' then name else '/' :: name

theorem withSlash_append {name : Text} (hname : name ≠ []) (s : Text) :
    withSlash (name ++ s) = withSlash name ++ s := by
  unfold withSlash
  rw [List.head?_append_of_ne_nil _ hname]
  split <;> rfl

namespace ResponseKind

/-- The last characters of a suffix, the last one first, as many as the shortest suffix has. -/
def ending (kind : ResponseKind) : Text := kind.suffix.reverse.take 5

theorem ending_inj {kind kind' : ResponseKind} (h : kind.ending = kind'.ending) : kind = kind' := by
  cases kind <;> cases kind' <;> first | rfl | exact absurd h (by decide)

theorem five_le_length_suffix (kind : ResponseKind) : 5 ≤ kind.suffix.reverse.length := by
  cases kind <;> decide

/-- Both parts can be read off the text. -/
theorem append_suffix_inj {s s' : Text} {kind kind' : ResponseKind} :
    s ++ kind.suffix = s' ++ kind'.suffix ↔ kind = kind' ∧ s = s' := by
  constructor
  · intro h
    -- the last five characters tell the suffixes apart, whatever is in front of them
    have hreverse := congrArg List.reverse h
    rw [List.reverse_append, List.reverse_append] at hreverse
    have hending : kind.ending = kind'.ending := by
      have htake := congrArg (List.take 5) hreverse
      rw [List.take_append_of_le_length kind.five_le_length_suffix,
        List.take_append_of_le_length kind'.five_le_length_suffix] at htake
      exact htake
    obtain rfl := ending_inj hending
    exact ⟨rfl, List.append_cancel_right h⟩
  · rintro ⟨rfl, rfl⟩
    rfl

end ResponseKind

namespace Environment

variable {env : Environment}

theorem keyOf_eq {name : Text} (hname : name ≠ []) (kind : ResponseKind) :
    env.keyOf name kind = env.hash256 (withSlash name ++ kind.suffix) := by
  rw [← withSlash_append hname]
  rfl

/-- Where no two texts have the same hash, keys are equal only for the same kind of response of the same
dataset. -/
theorem keyOf_eq_iff (hhash : Function.Injective env.hash256) {name name' : Text} (hname : name ≠ [])
    (hname' : name' ≠ []) (kind kind' : ResponseKind) :
    env.keyOf name kind = env.keyOf name' kind' ↔ kind = kind' ∧ withSlash name = withSlash name' := by
  rw [keyOf_eq hname, keyOf_eq hname', hhash.eq_iff, ResponseKind.append_suffix_inj]

/-- Each response has a hash, and it is that of another response only if this is of the same kind and for
a name that differs in a leading slash at most. -/
theorem getHash_eq_iff (hhash : Function.Injective env.hash256) {name name' : Text} (hname : name ≠ [])
    (hname' : name' ≠ []) (kind kind' : ResponseKind) :
    ∃ key key', env.getHash (name ++ kind.suffix) = .ok key ∧
      env.getHash (name' ++ kind'.suffix) = .ok key' ∧
      (key = key' ↔ kind = kind' ∧ withSlash name = withSlash name') :=
  ⟨_, _, getHash_kind env name kind, getHash_kind env name' kind', keyOf_eq_iff hhash hname hname' kind kind'⟩

/-- A name that ends in a suffix, and one that does not begin with a slash. -/
theorem getHash_eq_iff_names : ∃ key key',
    plainEnvironment.getHash ("/a.dds_r".toList ++ ResponseKind.dds.suffix) = .ok key ∧
      plainEnvironment.getHash ("a.".toList ++ ResponseKind.dds.suffix) = .ok key' ∧
      (key = key' ↔ ResponseKind.dds = .dds ∧ withSlash "/a.dds_r".toList = withSlash "a.".toList) :=
  getHash_eq_iff Function.injective_id (by decide) (by decide) .dds .dds

/-! ## What a call leaves alone -/

section

variable {other : Text}

theorem storeDapResponse_files (hunlimited : env.cache.isUnlimited = true) (writer : StreamDap)
    {key : Text} (hother : other ≠ env.cache.cacheFileName key) (s : MetadataStore) :
    (env.storeDapResponse writer key s).2.disk.files other = s.disk.files other := by
  have hkept : ∀ disk, env.Frame (env.cache.cacheFileName key) s.disk disk →
      disk.files other = s.disk.files other := by
    intro disk hframe
    rcases hframe.files other hother with hsame | ⟨hlimited, -⟩
    · exact hsame
    · rw [hunlimited] at hlimited
      cases hlimited
  rcases storeDapResponse_outcome env writer key s with ⟨-, houtcome⟩ | ⟨-, -, e, hended⟩
  · generalize env.storeDapResponse writer key s = ended at houtcome
    cases houtcome with
    | stored disk hnew hwriter hitem hframe => exact hkept disk hframe
    | refused hitem => rfl
    | failed e disk hitem hframe => exact hkept disk hframe
  · rw [hended]
    exact Disk.files_create hother

theorem removeResponseHelper_files (name : Text) (kind : ResponseKind) (hother : other ≠ env.itemOf name kind)
    (s : MetadataStore) :
    (env.removeResponseHelper name kind s).2.disk.files other = s.disk.files other := by
  rw [removeResponseHelper, getHash_kind]
  dsimp only
  split
  · exact Disk.files_remove hother
  · rfl

theorem removeKinds_files (name : Text) (hother : ∀ kind, other ≠ env.itemOf name kind)
    (kinds : List ResponseKind) (s : MetadataStore) :
    (env.removeKinds name kinds s).2.disk.files other = s.disk.files other := by
  induction kinds generalizing s with
  | nil => rfl
  | cons kind kinds ih =>
      have hfirst := removeResponseHelper_files name kind (hother kind) s
      rw [removeKinds]
      generalize env.removeResponseHelper name kind s = ended at hfirst
      obtain ⟨_ | removed, s'⟩ := ended
      · exact hfirst
      · have hrest := (ih s').trans hfirst
        dsimp only
        generalize env.removeKinds name kinds s' = ended at hrest
        obtain ⟨_ | more, s''⟩ := ended <;> exact hrest

end

end Environment

def StoreOp.name : StoreOp → Text
  | .addDds _ name => name
  | .addDmr _ name => name
  | .remove name => name

namespace Environment

variable {env : Environment} {other : Text}

theorem storeUnderHash_files (hunlimited : env.cache.isUnlimited = true) (writer : StreamDap) (name : Text)
    (hother : ∀ kind, other ≠ env.itemOf name kind) (kind : ResponseKind) (s : MetadataStore) :
    (env.storeUnderHash writer name kind s).2.disk.files other = s.disk.files other := by
  rw [storeUnderHash_eq]
  exact storeDapResponse_files hunlimited writer (hother kind) s

theorem writeLedger_files (env : Environment) (s : MetadataStore) :
    (env.writeLedger s).2.disk.files other = s.disk.files other := by
  rw [writeLedger_disk]

/-- A call touches the files of its dataset only. -/
theorem step_files (hunlimited : env.cache.isUnlimited = true) (op : StoreOp)
    (hother : ∀ kind, other ≠ env.itemOf op.name kind) (s : MetadataStore) :
    (env.step s op).2.disk.files other = s.disk.files other := by
  -- a new entry changes no file, and the parts of the call are taken one after the other
  cases op with
  | addDds dds name =>
      have hdds := storeUnderHash_files hunlimited dds.ddsResponse name hother .dds (s.startEntry .addDds name)
      show (env.addResponsesDds dds name s).2.disk.files other = _
      unfold addResponsesDds
      dsimp only
      generalize env.storeUnderHash dds.ddsResponse name .dds (s.startEntry .addDds name) = ended at hdds
      obtain ⟨_ | storedDds, s₁⟩ := ended
      · exact hdds
      · have hdas := (storeUnderHash_files hunlimited dds.dasResponse name hother .das s₁).trans hdds
        dsimp only
        generalize env.storeUnderHash dds.dasResponse name .das s₁ = ended at hdas
        obtain ⟨_ | storedDas, s₂⟩ := ended
        · exact hdas
        · have hwritten := (writeLedger_files env s₂).trans hdas
          dsimp only
          generalize env.writeLedger s₂ = ended at hwritten
          obtain ⟨_ | u, s₃⟩ := ended <;> exact hwritten
  | addDmr dmr name =>
      have hdmr := storeUnderHash_files hunlimited dmr.dmrResponse name hother .dmr (s.startEntry .addDmr name)
      show (env.addResponsesDmr dmr name s).2.disk.files other = _
      unfold addResponsesDmr
      dsimp only
      generalize env.storeUnderHash dmr.dmrResponse name .dmr (s.startEntry .addDmr name) = ended at hdmr
      obtain ⟨_ | storedDmr, s₁⟩ := ended
      · exact hdmr
      · have hwritten := (writeLedger_files env s₁).trans hdmr
        dsimp only
        generalize env.writeLedger s₁ = ended at hwritten
        obtain ⟨_ | u, s₂⟩ := ended <;> exact hwritten
  | remove name =>
      have hremoved := removeKinds_files name hother [.dds, .das, .dmr, .dmrpp] (s.startEntry .remove name)
      show (env.removeResponses name s).2.disk.files other = _
      unfold removeResponses
      dsimp only
      generalize env.removeKinds name [.dds, .das, .dmr, .dmrpp] (s.startEntry .remove name) = ended
        at hremoved
      obtain ⟨_ | removed, s₁⟩ := ended
      · exact hremoved
      · have hwritten := (writeLedger_files env s₁).trans hremoved
        dsimp only
        generalize env.writeLedger s₁ = ended at hwritten
        obtain ⟨_ | u, s₂⟩ := ended <;> exact hwritten

theorem run_files (hunlimited : env.cache.isUnlimited = true) {ops : List StoreOp}
    (hother : ∀ op ∈ ops, ∀ kind, other ≠ env.itemOf op.name kind) (s : MetadataStore) :
    (env.run ops s).2.disk.files other = s.disk.files other := by
  induction ops generalizing s with
  | nil => rfl
  | cons op ops ih =>
      obtain ⟨hop, hops⟩ := List.forall_mem_cons.mp hother
      have hstep := step_files hunlimited op hop s
      rw [run]
      generalize env.step s op = ended at hstep
      obtain ⟨_ | result, s'⟩ := ended <;> exact (ih hops s').trans hstep

/-- The responses of a dataset stay what they are through a run that is about other datasets. -/
theorem run_otherDataset (hunlimited : env.cache.isUnlimited = true)
    (hhash : Function.Injective env.hash256) (hfile : Function.Injective env.cache.cacheFileName)
    {name : Text} (hname : name ≠ []) {ops : List StoreOp}
    (hops : ∀ op ∈ ops, op.name ≠ [] ∧ withSlash op.name ≠ withSlash name) (kind : ResponseKind)
    (s : MetadataStore) :
    (env.run ops s).2.disk.files (env.itemOf name kind) = s.disk.files (env.itemOf name kind) := by
  apply run_files hunlimited
  intro op hop kind' heq
  obtain ⟨hne, hdiffers⟩ := hops op hop
  have hkeys := (keyOf_eq_iff hhash hname hne kind kind').mp (hfile heq)
  exact hdiffers hkeys.2.symm

end Environment

end Skunk.BesUtils
