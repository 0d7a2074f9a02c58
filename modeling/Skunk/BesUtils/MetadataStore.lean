import Skunk.BesUtils.InsertXmlBase
import Skunk.BesUtils.LockingCache

/-!
# `GlobalMetadataStore`

The responses of a dataset, each in a file of the cache under the hash of its name and kind, and a ledger
of what was added and removed.

Whatever can fail is an argument here: the cache, whether a file can be opened and how much of a text gets
into it (`Environment`), and the writer of a response (`StreamDap`). Only `unlink` is taken to remove every
file that is there. What is written to the server's log is left out.

The last section has one lemma for each operation that says all it can do.
-/

namespace Skunk.BesUtils

open Skunk.Posix

/-! ## Data -/

/-- A writer of a response: what it writes, and what it throws then. -/
structure StreamDap where
  written : Text
  throws : Option StoreException

/-- What a `DDS` is written as. -/
structure Dds where
  ddsResponse : StreamDap
  dasResponse : StreamDap

/-- What a `DMR` is written as. -/
structure Dmr where
  dmrResponse : StreamDap

/-- The responses that are kept. -/
inductive ResponseKind
  | dds
  | das
  | dmr
  | dmrpp
  deriving DecidableEq, Repr

/-- What is put behind the name before it is hashed. -/
def ResponseKind.suffix : ResponseKind → Text
  | .dds => "dds_r".toList
  | .das => "das_r".toList
  | .dmr => "dmr_r".toList
  | .dmrpp => "dmrpp_r".toList

inductive LedgerOperation
  | addDds
  | addDmr
  | remove
  deriving DecidableEq, Repr

/-- `d_ledger_entry`. -/
structure LedgerEntry where
  operation : LedgerOperation
  name : Text
  hashes : List Text
  deriving DecidableEq, Repr

def LedgerOperation.text : LedgerOperation → Text
  | .addDds => "add DDS ".toList
  | .addDmr => "add DMR ".toList
  | .remove => "remove ".toList

def LedgerEntry.text (entry : LedgerEntry) : Text :=
  entry.operation.text ++ entry.name ++ entry.hashes.flatMap (' ' :: ·)

/-- `d_ledger_entry.append(" ").append(key)`. -/
def LedgerEntry.append (entry : LedgerEntry) (key : Text) : LedgerEntry :=
  { entry with hashes := entry.hashes ++ [key] }

/-- A line of the ledger: the time and an entry. -/
structure LedgerLine where
  time : Text
  entry : LedgerEntry
  deriving DecidableEq, Repr

def LedgerLine.text (line : LedgerLine) : Text := line.time ++ [' '] ++ line.entry.text

/-- An `ofstream`: a stream that is not open fails when it is written to. -/
structure Ofstream where
  isOpen : Bool
  good : Bool
  deriving DecidableEq, Repr

/-- A `GlobalMetadataStore`, with the lines in the file of its ledger. -/
structure MetadataStore where
  disk : Disk
  ledger : List LedgerLine
  dLedgerName : Text
  dLedgerEntry : LedgerEntry
  dUseLocalTime : Bool
  of : Ofstream

def MetadataStore.startEntry (operation : LedgerOperation) (name : Text) (s : MetadataStore) :
    MetadataStore :=
  { s with dLedgerEntry := ⟨operation, name, []⟩ }

/-- What the store has from elsewhere. -/
structure Environment where
  cache : LockingCache
  /-- `picosha2::hash256_hex_string`. -/
  hash256 : Text → Text
  /-- Can the file be opened to write? -/
  canOpen : Text → Disk → Bool
  /-- What gets into a file of a text that is written to it: a full disk takes a part, and nobody asks the
  stream. -/
  flushed : Text → Disk → Text → Text
  /-- `strftime`, in local time or not. -/
  formatTime : Bool → Nat → Text

namespace Environment

variable (env : Environment)

/-! ## Keys and the ledger -/

def getHash (name : Text) : Except StoreException Text :=
  match name with
  | [] => .error (.internal "Empty name passed to the Metadata Store.".toList)
  | c :: cs => .ok (env.hash256 (if c = '/' then c :: cs else '/' :: c :: cs))

/-- The `ofstream` that `initialize` opens is a variable of its own, so the member stays closed. -/
def initStore (ledgerName : Text) (useLocalTime : Bool) (disk : Disk) (ledger : List LedgerLine) :
    MetadataStore where
  disk := disk
  ledger := ledger
  dLedgerName := ledgerName
  dLedgerEntry := ⟨.remove, [], []⟩
  dUseLocalTime := useLocalTime
  of := ⟨false, true⟩

/-- `of << … << endl`. -/
def writeLine (s : MetadataStore) : MetadataStore :=
  if s.of.isOpen then
    { s with ledger := s.ledger ++ [⟨env.formatTime s.dUseLocalTime s.disk.now, s.dLedgerEntry⟩] }
  else { s with of := { s.of with good := false } }

def writeLedger (s : MetadataStore) : Except StoreException Unit × MetadataStore :=
  match env.cache.getExclusiveLock s.dLedgerName s.disk with
  | (.error e, disk) => (.error e, { s with disk })
  | (.ok false, disk) =>
    (.error (.internal ("Could not write lock '".toList ++ s.dLedgerName)), { s with disk })
  | (.ok true, disk) =>
    let s := { s with disk }
    let s := if s.of.good then env.writeLine s else s
    (.ok (), { s with disk := env.cache.unlockAndClose s.dLedgerName s.disk })

/-! ## Adding responses -/

/-- What `store_dap_response` does in its `try` block. -/
def fillItem (writer : StreamDap) (itemName : Text) (disk : Disk) : Except StoreException Unit × Disk :=
  let disk := disk.append itemName (env.flushed itemName disk writer.written)
  match writer.throws with
  | some e => (.error e, disk)
  | none =>
    if env.cache.isUnlimited then (.ok (), env.cache.unlockAndClose itemName disk)
    else
      match env.cache.exclusiveToSharedLock itemName disk with
      | (.error e, disk) => (.error e, disk)
      | (.ok (), disk) =>
        match env.cache.updateCacheInfo itemName disk with
        | (.error e, disk) => (.error e, disk)
        | (.ok size, disk) =>
          if env.cache.cacheTooBig size then
            match env.cache.updateAndPurge itemName disk with
            | (.error e, disk) => (.error e, disk)
            | (.ok (), disk) => (.ok (), env.cache.unlockAndClose itemName disk)
          else (.ok (), env.cache.unlockAndClose itemName disk)

def storeDapResponse (writer : StreamDap) (key : Text) (s : MetadataStore) :
    Except StoreException Bool × MetadataStore :=
  let itemName := env.cache.cacheFileName key
  match env.cache.createAndLock itemName s.disk with
  | (.error e, disk) => (.error e, { s with disk })
  | (.ok true, disk) =>
    if !env.canOpen itemName disk then
      (.error (.internal ("Could not open '".toList ++ key ++ "' to write the response.".toList)),
        { s with disk })
    else
      match env.fillItem writer itemName disk with
      | (.error e, disk) =>
        (.error e, { s with disk := env.cache.unlockAndClose itemName (env.cache.purgeFile itemName disk) })
      | (.ok (), disk) =>
        (.ok true, { s with disk, dLedgerEntry := s.dLedgerEntry.append key })
  | (.ok false, disk) =>
    match env.cache.getReadLock itemName disk with
    | (.error e, disk) => (.error e, { s with disk })
    | (.ok true, disk) => (.ok false, { s with disk := env.cache.unlockAndClose itemName disk })
    | (.ok false, disk) =>
      (.error (.internal ("Could neither create or open '".toList ++ itemName ++
        "' in the metadata store.".toList)), { s with disk })

/-- A response under the hash of its name and kind. -/
def storeUnderHash (writer : StreamDap) (name : Text) (kind : ResponseKind) (s : MetadataStore) :
    Except StoreException Bool × MetadataStore :=
  match env.getHash (name ++ kind.suffix) with
  | .error e => (.error e, s)
  | .ok key => env.storeDapResponse writer key s

def addResponsesDds (dds : Dds) (name : Text) (s : MetadataStore) :
    Except StoreException Bool × MetadataStore :=
  let s := s.startEntry .addDds name
  match env.storeUnderHash dds.ddsResponse name .dds s with
  | (.error e, s) => (.error e, s)
  | (.ok storedDds, s) =>
    match env.storeUnderHash dds.dasResponse name .das s with
    | (.error e, s) => (.error e, s)
    | (.ok storedDas, s) =>
      match env.writeLedger s with
      | (.error e, s) => (.error e, s)
      | (.ok (), s) => (.ok (storedDds && storedDas), s)

def addResponsesDmr (dmr : Dmr) (name : Text) (s : MetadataStore) :
    Except StoreException Bool × MetadataStore :=
  let s := s.startEntry .addDmr name
  match env.storeUnderHash dmr.dmrResponse name .dmr s with
  | (.error e, s) => (.error e, s)
  | (.ok storedDmr, s) =>
    match env.writeLedger s with
    | (.error e, s) => (.error e, s)
    | (.ok (), s) => (.ok storedDmr, s)

/-! ## Removing responses -/

/-- `remove_response_helper`. The `unlink` of a file that is there does not fail. -/
def removeResponseHelper (name : Text) (kind : ResponseKind) (s : MetadataStore) :
    Except StoreException Bool × MetadataStore :=
  match env.getHash (name ++ kind.suffix) with
  | .error e => (.error e, s)
  | .ok hash =>
    if (s.disk.files (env.cache.cacheFileName hash)).isSome then
      (.ok true, { s with
        disk := s.disk.remove (env.cache.cacheFileName hash)
        dLedgerEntry := s.dLedgerEntry.append hash })
    else (.ok false, s)

/-- The calls of `remove_response_helper`, one after the other: was anything removed? -/
def removeKinds (name : Text) : List ResponseKind → MetadataStore →
    Except StoreException Bool × MetadataStore
  | [], s => (.ok false, s)
  | kind :: kinds, s =>
    match env.removeResponseHelper name kind s with
    | (.error e, s) => (.error e, s)
    | (.ok removed, s) =>
      match removeKinds name kinds s with
      | (.error e, s) => (.error e, s)
      | (.ok more, s) => (.ok (removed || more), s)

def removeResponses (name : Text) (s : MetadataStore) : Except StoreException Bool × MetadataStore :=
  let s := s.startEntry .remove name
  match env.removeKinds name [.dds, .das, .dmr, .dmrpp] s with
  | (.error e, s) => (.error e, s)
  | (.ok removed, s) =>
    match env.writeLedger s with
    | (.error e, s) => (.error e, s)
    | (.ok (), s) => (.ok removed, s)

/-! ## Reading responses -/

end Environment

structure MdsReadLock where
  name : Text
  locked : Bool
  deriving DecidableEq, Repr

structure BesContainer where
  realName : Text
  relativeName : Text
  containerType : Text
  deriving DecidableEq, Repr

namespace Environment

variable (env : Environment)

def getReadLockHelper (name : Text) (kind : ResponseKind) (s : MetadataStore) :
    Except StoreException MdsReadLock × MetadataStore :=
  if name = [] then
    (.error (.internal ("An empty name string was received by ".toList ++
      "GlobalMetadataStore::get_read_lock_helper(). That should never happen.".toList)), s)
  else
    match env.getHash (name ++ kind.suffix) with
    | .error e => (.error e, s)
    | .ok key =>
      let itemName := env.cache.cacheFileName key
      match env.cache.getReadLock itemName s.disk with
      | (.error e, disk) => (.error e, { s with disk })
      | (.ok locked, disk) => (.ok ⟨itemName, locked⟩, { s with disk })

def getCacheLmt (fileName : Text) (kind : ResponseKind) (disk : Disk) : Except StoreException Nat :=
  match env.getHash (fileName ++ kind.suffix) with
  | .error e => .error e
  | .ok key =>
    match disk.files (env.cache.cacheFileName key) with
    | none => .error (.notFound "No such file or directory".toList)
    | some file => .ok file.mtime

/-- `is_available_helper`: has the dataset been modified since? -/
def isAvailableHelper (container : BesContainer) (kind : ResponseKind) (disk : Disk) :
    Except StoreException Bool :=
  let fileTime := disk.lmt container.containerType container.realName
  match env.getCacheLmt container.relativeName kind disk with
  | .error e => .error e
  | .ok cacheTime => .ok (fileTime > cacheTime)

/-- `clearLock`, and what the destructor of a lock does. -/
def clearLock (lock : MdsReadLock) (s : MetadataStore) : MetadataStore :=
  if lock.locked then { s with disk := env.cache.unlockAndClose lock.name s.disk } else s

def isDmrAvailable (container : BesContainer) (s : MetadataStore) :
    Except StoreException MdsReadLock × MetadataStore :=
  match env.getReadLockHelper container.relativeName .dmr s with
  | (.error e, s) => (.error e, s)
  | (.ok lock, s) =>
    if lock.locked then
      match env.isAvailableHelper container .dmr s.disk with
      | .error e => (.error e, env.clearLock lock s)
      | .ok reload =>
        if reload then (.ok { lock with locked := false }, env.clearLock lock s) else (.ok lock, s)
    else (.ok lock, s)

/-- What is written of a response, with a new `xml:base` if there is one. -/
def responseText (itemName : Text) (xmlBase : Option Text) (fd : Descriptor) :
    Except StoreException Text :=
  let written := match xmlBase with
    | none => (transferBytes fd).map Prod.fst
    | some xmlBase => writeResponseHelper (some fd) (String.ofList itemName) xmlBase
  written.mapError fun _ => .thrown

/-- `write_dmr_response`. The file is read as `limits` says. -/
def writeDmrResponse (name : Text) (xmlBase : Option Text) (limits : Nat → Option Nat)
    (s : MetadataStore) : Except StoreException Text × MetadataStore :=
  match env.getHash (name ++ ResponseKind.dmr.suffix) with
  | .error e => (.error e, s)
  | .ok key =>
    let itemName := env.cache.cacheFileName key
    match env.cache.getReadLock itemName s.disk with
    | (.error e, disk) => (.error e, { s with disk })
    | (.ok false, disk) =>
      (.error (.internal ("Could not open '".toList ++ itemName ++ "' in the metadata store.".toList)),
        { s with disk })
    | (.ok true, disk) =>
      let text := ((disk.files itemName).elim [] ItemFile.text)
      (responseText itemName xmlBase ⟨text, limits, 0⟩,
        { s with disk := env.cache.unlockAndClose itemName disk })

/-! ## What the operations do -/

/-- The key of a response. -/
def keyOf (name : Text) (kind : ResponseKind) : Text :=
  env.hash256 (if (name ++ kind.suffix).head? = some '/' then name ++ kind.suffix
    else '/' :: (name ++ kind.suffix))

/-- The file of a response. -/
def itemOf (name : Text) (kind : ResponseKind) : Text := env.cache.cacheFileName (env.keyOf name kind)

theorem getHash_kind (name : Text) (kind : ResponseKind) :
    env.getHash (name ++ kind.suffix) = .ok (env.keyOf name kind) := by
  have hne : name ++ kind.suffix ≠ [] := by
    intro hnil
    have hsuffix : kind.suffix ≠ [] := by cases kind <;> decide
    exact hsuffix (List.append_eq_nil_iff.mp hnil).2
  rw [keyOf]
  cases hfull : name ++ kind.suffix with
  | nil => exact absurd hfull hne
  | cons c cs =>
      simp only [getHash, List.head?_cons, Option.some.injEq]

variable {env}

/-- Apart from one file, all is as it was, except that a cache of limited size may have lost files. -/
structure Frame (env : Environment) (item : Text) (d d' : Disk) : Prop where
  locks : d'.locks = d.locks
  lmt : d'.lmt = d.lmt
  now : d'.now = d.now
  files (other : Text) : other ≠ item → d'.files other = d.files other ∨
    env.cache.isUnlimited = false ∧ d'.files other = none

theorem Frame.refl {item : Text} {d : Disk} : env.Frame item d d :=
  ⟨rfl, rfl, rfl, fun _ _ => .inl rfl⟩

/-- If the item can be made, its file can be opened. -/
def Opens (env : Environment) (key : Text) (s : MetadataStore) : Prop :=
  (env.cache.createAndLock (env.cache.cacheFileName key) s.disk).1 = .ok true →
    env.canOpen (env.cache.cacheFileName key) (s.disk.create (env.cache.cacheFileName key)) = true

/-- All of what is written to a file gets there. -/
def Flushes (env : Environment) : Prop := ∀ item disk text, env.flushed item disk text = text

/-- How `store_dap_response` can end if the file can be opened. -/
inductive StoreOutcome (env : Environment) (writer : StreamDap) (key : Text) (s : MetadataStore) :
    Except StoreException Bool × MetadataStore → Prop
  | stored (disk : Disk) (hnew : s.disk.files (env.cache.cacheFileName key) = none)
      (hwriter : writer.throws = none)
      (hitem : disk.files (env.cache.cacheFileName key) = some
        ⟨env.flushed (env.cache.cacheFileName key) (s.disk.create (env.cache.cacheFileName key))
          writer.written, s.disk.now⟩)
      (hframe : env.Frame (env.cache.cacheFileName key) s.disk disk) :
      StoreOutcome env writer key s (.ok true, { s with disk, dLedgerEntry := s.dLedgerEntry.append key })
  | refused (hitem : (s.disk.files (env.cache.cacheFileName key)).isSome) :
      StoreOutcome env writer key s (.ok false, s)
  | failed (e : StoreException) (disk : Disk)
      (hitem : disk.files (env.cache.cacheFileName key) = s.disk.files (env.cache.cacheFileName key))
      (hframe : env.Frame (env.cache.cacheFileName key) s.disk disk) :
      StoreOutcome env writer key s (.error e, { s with disk })

/-- The new item with something in it, unlocked. -/
theorem Frame.append_create (env : Environment) (item text : Text) (d : Disk) :
    env.Frame item d (((d.create item).append item text).unlock item) := by
  refine ⟨?_, rfl, rfl, ?_⟩
  · rw [Disk.locks_unlock, Disk.locks_append, Disk.locks_create, dropNewest_cons]
  · intro other hother
    left
    rw [Disk.files_unlock, Disk.files_append hother, Disk.files_create hother]

/-- Other files are removed. -/
theorem Frame.purge {item : Text} {d d' : Disk} {files : Text → Option ItemFile}
    (hframe : env.Frame item d (d'.unlock item)) (hlimited : env.cache.isUnlimited = false)
    (hfiles : ∀ other, files other = none ∨ files other = d'.files other) :
    env.Frame item d ({ d' with files }.unlock item) := by
  refine ⟨hframe.locks, hframe.lmt, hframe.now, ?_⟩
  intro other hother
  rcases hfiles other with hnone | heq
  · exact .inr ⟨hlimited, hnone⟩
  · have hold := hframe.files other hother
    rw [Disk.files_unlock, ← heq] at hold
    exact hold

/-- The new item is filled and unlocked, or it is still locked. -/
theorem fillItem_cases (env : Environment) (writer : StreamDap) (item : Text) (d : Disk) :
    (∃ disk, env.fillItem writer item (d.create item) = (.ok (), disk) ∧ writer.throws = none ∧
        disk.files item = some ⟨env.flushed item (d.create item) writer.written, d.now⟩ ∧
        env.Frame item d disk) ∨
      ∃ e disk, env.fillItem writer item (d.create item) = (.error e, disk) ∧
        env.Frame item d (disk.unlock item) := by
  unfold fillItem
  dsimp only
  generalize env.flushed item (d.create item) writer.written = text
  have hwritten := Frame.append_create env item text d
  have hitem : (((d.create item).append item text).unlock item).files item = some ⟨text, d.now⟩ :=
    Disk.files_append_create
  -- whatever the mode of the lock is, it is gone with `unlock`
  have hshared : (((d.create item).append item text).share item).unlock item =
      ((d.create item).append item text).unlock item := by
    simp only [Disk.unlock, Disk.share, dropNewest_shareNewest]
  cases hthrows : writer.throws with
  | some e => exact .inr ⟨e, _, rfl, hwritten⟩
  | none =>
      cases hlimited : env.cache.isUnlimited with
      | true =>
          left
          -- an unlimited cache keeps no account
          exact ⟨_, rfl, rfl, by rw [env.cache.unlockAndClose_eq]; exact ⟨hitem, hwritten⟩⟩
      | false =>
          dsimp only
          rw [if_neg (by decide)]
          rcases env.cache.exclusiveToSharedLock_cases item
            ((d.create item).append item text) with hlock | ⟨e, hlock⟩
          · rw [hlock]
            dsimp only
            generalize hd : ((d.create item).append item text).share item = disk
            rw [hd] at hshared
            rw [← hshared] at hwritten hitem
            obtain ⟨info, hinfo⟩ := env.cache.updateCacheInfo_eq item disk
            rw [hinfo]
            cases info with
            | error e => exact .inr ⟨e, disk, rfl, hwritten⟩
            | ok size =>
                dsimp only
                split
                · obtain ⟨purged, files, hpurged, hkept, hfiles⟩ :=
                    env.cache.updateAndPurge_eq item disk
                  -- the purge removes other items, but not the new one
                  have hframe := hwritten.purge hlimited hfiles
                  rw [hpurged]
                  cases purged with
                  | error e => exact .inr ⟨e, _, rfl, hframe⟩
                  | ok u =>
                      left
                      refine ⟨_, rfl, rfl, ?_⟩
                      rw [env.cache.unlockAndClose_eq]
                      exact ⟨hkept.trans hitem, hframe⟩
                · left
                  refine ⟨_, rfl, rfl, ?_⟩
                  rw [env.cache.unlockAndClose_eq]
                  exact ⟨hitem, hwritten⟩
          · rw [hlock]
            exact .inr ⟨e, _, rfl, hwritten⟩

/-- All that `store_dap_response` can do. -/
theorem storeDapResponse_outcome (env : Environment) (writer : StreamDap) (key : Text)
    (s : MetadataStore) :
    env.Opens key s ∧ StoreOutcome env writer key s (env.storeDapResponse writer key s) ∨
      ¬ env.Opens key s ∧ s.disk.files (env.cache.cacheFileName key) = none ∧
        ∃ e, env.storeDapResponse writer key s =
          (.error e, { s with disk := s.disk.create (env.cache.cacheFileName key) }) := by
  unfold storeDapResponse
  dsimp only
  generalize hname : env.cache.cacheFileName key = item
  rcases env.cache.createAndLock_cases item s.disk with ⟨hnew, hcreate⟩ | hcreate | ⟨e, hcreate⟩
  · rw [hcreate]
    dsimp only
    by_cases hopen : env.canOpen item (s.disk.create item) = true
    · left
      refine ⟨fun _ => by rw [hname]; exact hopen, ?_⟩
      rw [hopen, Bool.not_true, if_neg (by decide)]
      rcases fillItem_cases env writer item s.disk with
        ⟨disk, hfill, hwriter, hitem, hframe⟩ | ⟨e, disk, hfill, hframe⟩
      · rw [hfill]
        subst hname
        exact .stored disk hnew hwriter hitem hframe
      · rw [hfill]
        dsimp only
        rw [env.cache.purgeFile_eq, env.cache.unlockAndClose_eq]
        -- the new item is removed again
        refine .failed e _ ?_ ?_
        · rw [hname, hnew]
          exact Disk.files_remove_self
        · rw [hname]
          refine ⟨hframe.locks, hframe.lmt, hframe.now, ?_⟩
          intro other hother
          rw [Disk.files_unlock, Disk.files_remove hother]
          exact hframe.files other hother
    · right
      -- the stream cannot be opened, and the item stays there, empty and locked
      refine ⟨fun hopens => hopen ?_, hnew, ?_⟩
      · have := hopens (by rw [hname, hcreate])
        rwa [hname] at this
      · rw [Bool.not_eq_true] at hopen
        rw [hopen, Bool.not_false, if_pos rfl]
        exact ⟨_, rfl⟩
  · left
    rw [hcreate]
    dsimp only
    refine ⟨?_, ?_⟩
    · intro htrue
      rw [hname, hcreate] at htrue
      cases htrue
    · -- it is not new: whether it can be locked for reading decides what is said
      rcases env.cache.getReadLock_cases item s.disk with ⟨hitem, hread⟩ | hread | ⟨e, hread⟩
      · rw [hread]
        dsimp only
        rw [env.cache.unlockAndClose_eq, Disk.unlock_lock]
        exact .refused (by rwa [hname])
      · rw [hread]
        exact .failed _ s.disk rfl .refl
      · rw [hread]
        exact .failed e s.disk rfl .refl
  · left
    rw [hcreate]
    refine ⟨?_, ?_⟩
    · intro htrue
      rw [hname, hcreate] at htrue
      cases htrue
    · exact .failed e s.disk rfl .refl

/-- No lock is left over, and an item that a failed call has made is gone. -/
structure EndsClean (item : Text) (s : MetadataStore)
    (ended : Except StoreException Bool × MetadataStore) : Prop where
  locks : ended.2.disk.locks = s.disk.locks
  gone (e : StoreException) : ended.1 = .error e → s.disk.files item = none →
    ended.2.disk.files item = none

theorem StoreOutcome.endsClean {writer : StreamDap} {key : Text} {s : MetadataStore}
    {ended : Except StoreException Bool × MetadataStore} (h : StoreOutcome env writer key s ended) :
    EndsClean (env.cache.cacheFileName key) s ended := by
  cases h with
  | stored disk hnew hwriter hitem hframe =>
      refine ⟨hframe.locks, ?_⟩
      intro e he
      cases he
  | refused hitem =>
      refine ⟨rfl, ?_⟩
      intro e he
      cases he
  | failed e disk hitem hframe =>
      refine ⟨hframe.locks, ?_⟩
      intro _ _ hnone
      exact hitem.trans hnone

/-- A call of `store_dap_response` ends clean exactly if, when it makes the item, it can open the file. -/
theorem storeDapResponse_endsClean_iff (env : Environment) (writer : StreamDap) (key : Text)
    (s : MetadataStore) :
    EndsClean (env.cache.cacheFileName key) s (env.storeDapResponse writer key s) ↔ env.Opens key s := by
  rcases storeDapResponse_outcome env writer key s with ⟨hopens, houtcome⟩ | ⟨hnot, -, e, hended⟩
  · exact iff_of_true houtcome.endsClean hopens
  · refine iff_of_false ?_ hnot
    intro hclean
    have hlocks := hclean.locks
    rw [hended, Disk.locks_create] at hlocks
    have hlength := congrArg List.length hlocks
    rw [List.length_cons] at hlength
    omega

end Environment

/-- Nothing stored, no lock held. -/
def emptyDisk : Disk where
  files _ := none
  locks := []
  lmt _ _ := 0
  now := 0

/-- A cache that gives every lock; names are their own hashes. -/
def plainEnvironment : Environment where
  cache := plainCache
  hash256 name := name
  canOpen _ _ := true
  flushed _ _ text := text
  formatTime _ _ := []

/-- No file can be opened: the new item stays, and stays locked. -/
theorem unopenedItem_not_clean :
    ¬ Environment.EndsClean ['k'] (Environment.initStore ['l'] false emptyDisk [])
      ({ plainEnvironment with canOpen := fun _ _ => false }.storeDapResponse ⟨[], none⟩ ['k']
        (Environment.initStore ['l'] false emptyDisk [])) := by
  intro hclean
  have hlocks := hclean.locks
  cases hlocks

namespace Environment

variable {env : Environment}

/-! ## A failed `add_responses` -/

theorem storeUnderHash_eq (writer : StreamDap) (name : Text) (kind : ResponseKind) (s : MetadataStore) :
    env.storeUnderHash writer name kind s = env.storeDapResponse writer (env.keyOf name kind) s := by
  rw [storeUnderHash, getHash_kind]

/-- The line is written if the stream is good, and the lock is given back. -/
theorem writeLedger_cases (env : Environment) (s : MetadataStore) :
    env.writeLedger s = (.ok (), if s.of.good then env.writeLine s else s) ∨
      (env.cache.getExclusiveLock s.dLedgerName s.disk).1 ≠ .ok true ∧
        ∃ e, env.writeLedger s = (.error e, s) := by
  unfold writeLedger
  rcases env.cache.getExclusiveLock_cases s.dLedgerName s.disk with hlock | hlock | ⟨e, hlock⟩
  · left
    rw [hlock]
    dsimp only
    have hunlock : env.cache.unlockAndClose s.dLedgerName (s.disk.lock s.dLedgerName .exclusive) =
        s.disk := by
      rw [env.cache.unlockAndClose_eq, Disk.unlock_lock]
    cases hgood : s.of.good with
    | false => simp only [Bool.false_eq_true, if_false, hunlock]
    | true =>
        cases hopen : s.of.isOpen with
        | false => simp only [writeLine, hopen, Bool.false_eq_true, if_false, if_true, hunlock]
        | true =>
            simp only [writeLine, hopen, if_true, hunlock]
            rfl
  · right
    rw [hlock]
    exact ⟨by simp, _, rfl⟩
  · right
    rw [hlock]
    exact ⟨by simp, e, rfl⟩

/-- A file is as it was, or a cache of limited size has lost it. -/
def Kept (env : Environment) (d d' : Disk) (other : Text) : Prop :=
  d'.files other = d.files other ∨ env.cache.isUnlimited = false ∧ d'.files other = none

theorem Frame.kept {item : Text} {d d' : Disk} (hframe : env.Frame item d d')
    (hitem : d'.files item = d.files item) (other : Text) : env.Kept d d' other := by
  by_cases hother : other = item
  · subst hother
    exact .inl hitem
  · exact hframe.files other hother

/-- Without a new item, the store is the same except for what it has lost. -/
theorem StoreOutcome.of_error {writer : StreamDap} {key : Text} {s s' : MetadataStore}
    {e : StoreException} (h : StoreOutcome env writer key s (.error e, s')) :
    s'.ledger = s.ledger ∧ s'.disk.locks = s.disk.locks ∧ ∀ other, env.Kept s.disk s'.disk other := by
  cases h with
  | failed e disk hitem hframe => exact ⟨rfl, hframe.locks, hframe.kept hitem⟩

/-- Otherwise the item may also be new, and all that a writer that threw nothing has written. -/
theorem StoreOutcome.of_ok (hflush : env.Flushes) {writer : StreamDap} {key : Text} {s s' : MetadataStore}
    {stored : Bool} (h : StoreOutcome env writer key s (.ok stored, s')) :
    s'.ledger = s.ledger ∧ s'.disk.locks = s.disk.locks ∧ s'.disk.now = s.disk.now ∧
      ∀ other, env.Kept s.disk s'.disk other ∨ s.disk.files other = none ∧
        other = env.cache.cacheFileName key ∧ writer.throws = none ∧
        s'.disk.files other = some ⟨writer.written, s.disk.now⟩ := by
  cases h with
  | stored disk hnew hwriter hitem hframe =>
      rw [hflush] at hitem
      refine ⟨rfl, hframe.locks, hframe.now, ?_⟩
      intro other
      by_cases hother : other = env.cache.cacheFileName key
      · subst hother
        exact .inr ⟨hnew, rfl, hwriter, hitem⟩
      · exact .inl (hframe.files other hother)
  | refused hitem => exact ⟨rfl, rfl, rfl, fun _ => .inl (.inl rfl)⟩

/-- What became of a file after a failed `add_responses`: the `DDS` response may have been added, all of it, and
the `DAS` response too, if it was the ledger that failed. -/
def FateAfterFailure (env : Environment) (dds : Dds) (name : Text) (s s' : MetadataStore)
    (item : Text) : Prop :=
  env.Kept s.disk s'.disk item ∨
    (s.disk.files item = none ∨ env.cache.isUnlimited = false) ∧
      (item = env.itemOf name .dds ∧ dds.ddsResponse.throws = none ∧
          s'.disk.files item = some ⟨dds.ddsResponse.written, s.disk.now⟩ ∨
        item = env.itemOf name .das ∧ dds.dasResponse.throws = none ∧
          s'.disk.files item = some ⟨dds.dasResponse.written, s.disk.now⟩ ∧
          (env.cache.getExclusiveLock s'.dLedgerName s'.disk).1 ≠ .ok true)

/-- A further step that loses files at most. -/
theorem FateAfterFailure.kept {dds : Dds} {name item : Text} {s s₁ s₂ : MetadataStore}
    (hfirst : env.Kept s.disk s₁.disk item ∨ s.disk.files item = none ∧ item = env.itemOf name .dds ∧
      dds.ddsResponse.throws = none ∧ s₁.disk.files item = some ⟨dds.ddsResponse.written, s.disk.now⟩)
    (hsecond : env.Kept s₁.disk s₂.disk item) : env.FateAfterFailure dds name s s₂ item := by
  rcases hsecond with hsame | hgone
  · rcases hfirst with hkept | ⟨hnew, hitem, hwriter, htext⟩
    · left
      unfold Kept
      rw [hsame]
      exact hkept
    · right
      exact ⟨.inl hnew, .inl ⟨hitem, hwriter, hsame.trans htext⟩⟩
  · exact .inl (.inr hgone)

/-- A failed `add_responses` leaves no lock and no line in the ledger, and of the files those that were
there and complete new ones. -/
theorem addResponsesDds_error {env : Environment} (hopen : ∀ item d, env.canOpen item d = true)
    (hflush : env.Flushes) {dds : Dds} {name : Text} {s s' : MetadataStore} {e : StoreException}
    (h : env.addResponsesDds dds name s = (.error e, s')) :
    s'.ledger = s.ledger ∧ s'.disk.locks = s.disk.locks ∧
      ∀ item, env.FateAfterFailure dds name s s' item := by
  have houtcome : ∀ writer key s, StoreOutcome env writer key s (env.storeDapResponse writer key s) := by
    intro writer key s
    rcases storeDapResponse_outcome env writer key s with ⟨-, houtcome⟩ | ⟨hnot, -⟩
    · exact houtcome
    · exact absurd (fun _ => hopen _ _) hnot
  unfold addResponsesDds at h
  dsimp only at h
  -- the entry is no part of what is kept
  have hfirst := houtcome dds.ddsResponse (env.keyOf name .dds) (s.startEntry .addDds name)
  rw [storeUnderHash_eq] at h
  generalize env.storeDapResponse dds.ddsResponse (env.keyOf name .dds) (s.startEntry .addDds name) =
    first at h hfirst
  obtain ⟨r₁, s₁⟩ := first
  cases r₁ with
  | error e₁ =>
      cases h
      obtain ⟨hledger, hlocks, hkept⟩ := hfirst.of_error
      exact ⟨hledger, hlocks, fun item => .inl (hkept item)⟩
  | ok storedDds =>
      obtain ⟨hledger₁, hlocks₁, hnow₁, hfate₁⟩ := hfirst.of_ok hflush
      have hsecond := houtcome dds.dasResponse (env.keyOf name .das) s₁
      dsimp only at h
      rw [storeUnderHash_eq] at h
      generalize env.storeDapResponse dds.dasResponse (env.keyOf name .das) s₁ = second at h hsecond
      obtain ⟨r₂, s₂⟩ := second
      have hdds : ∀ item, env.Kept s.disk s₁.disk item ∨ s.disk.files item = none ∧
          item = env.itemOf name .dds ∧ dds.ddsResponse.throws = none ∧
          s₁.disk.files item = some ⟨dds.ddsResponse.written, s.disk.now⟩ := hfate₁
      cases r₂ with
      | error e₂ =>
          cases h
          obtain ⟨hledger₂, hlocks₂, hkept₂⟩ := hsecond.of_error
          exact ⟨hledger₂.trans hledger₁, hlocks₂.trans hlocks₁,
            fun item => .kept (hdds item) (hkept₂ item)⟩
      | ok storedDas =>
          obtain ⟨hledger₂, hlocks₂, -, hfate₂⟩ := hsecond.of_ok hflush
          dsimp only at h
          rcases writeLedger_cases env s₂ with hwritten | ⟨hrefused, e₃, hfailed⟩
          · rw [hwritten] at h
            cases h
          · rw [hfailed] at h
            cases h
            refine ⟨hledger₂.trans hledger₁, hlocks₂.trans hlocks₁, ?_⟩
            intro item
            rcases hfate₂ item with hkept₂ | ⟨hnew, hitem, hwriter, htext⟩
            · exact .kept (hdds item) hkept₂
            · -- the `DAS` response is new; it was not there before, unless the first step lost it
              right
              rw [hnow₁] at htext
              refine ⟨?_, .inr ⟨hitem, hwriter, htext, hrefused⟩⟩
              rcases hdds item with (hsame | hgone) | ⟨-, -, -, hfound⟩
              · exact .inl (hsame.symm.trans hnew)
              · exact .inr hgone.1
              · rw [hnew] at hfound
                cases hfound

end Environment

/-- The `DAS` cannot be written: all that was added is the `DDS` response. -/
theorem failingDas_fate : ∃ s',
    plainEnvironment.addResponsesDds ⟨⟨['d'], none⟩, ⟨[], some .thrown⟩⟩ ['n']
        (Environment.initStore ['l'] false emptyDisk []) = (.error .thrown, s') ∧
      s'.ledger = [] ∧ s'.disk.locks = [] ∧
      ∀ item, plainEnvironment.FateAfterFailure ⟨⟨['d'], none⟩, ⟨[], some .thrown⟩⟩ ['n']
        (Environment.initStore ['l'] false emptyDisk []) s' item := by
  obtain ⟨s', hended⟩ : ∃ s',
      plainEnvironment.addResponsesDds ⟨⟨['d'], none⟩, ⟨[], some .thrown⟩⟩ ['n']
        (Environment.initStore ['l'] false emptyDisk []) = (.error .thrown, s') := ⟨_, rfl⟩
  exact ⟨s', hended, Environment.addResponsesDds_error (fun _ _ => rfl) (fun _ _ _ => rfl) hended⟩

/-- The `DAS` cannot be written: the `DDS` response stays without it. -/
theorem failingDas_leaves_dds : ∃ s',
    plainEnvironment.addResponsesDds ⟨⟨['d'], none⟩, ⟨[], some .thrown⟩⟩ ['n']
        (Environment.initStore ['l'] false emptyDisk []) = (.error .thrown, s') ∧
      s'.disk.files (plainEnvironment.itemOf ['n'] .dds) = some ⟨['d'], 0⟩ ∧
      s'.disk.files (plainEnvironment.itemOf ['n'] .das) = none ∧ s'.ledger = [] :=
  ⟨_, rfl, rfl, rfl, rfl⟩

end Skunk.BesUtils
