import Mathlib.Data.List.DropRight
import Skunk.Posix.Kernel

/-!
# The file cache

`FileCache` keeps files in a directory that any number of processes share. A file named `cache_info`
beside them holds one 64-bit number, the size of all of them. Each operation locks the cache, which is
an exclusive lock on `cache_info`, and works on the files with locks of their own: `put` copies a file,
`put_data` writes its bytes, `get` hands out an open file with a shared lock, `del` and `purge` remove
what they can lock exclusively. A `PutItem` is an open file with an exclusive lock that the caller
writes to; its destructor adds its size to the recorded one.

The methods are programs over the system calls. Messages to the log are left out.
-/

namespace Skunk.BesUtils

open Effect Posix

/-- A program that makes system calls. -/
abbrev Sys (α : Type) : Type := Prog sysCalls α

def call (c : SysCall) : Sys c.Reply := Prog.request (I := sysCalls) c

def pathConcat (firstPart secondPart : Text) : Text :=
  let first := firstPart.rdropWhile (· = '/')
  let second := secondPart.dropWhile (· = '/')
  if first = [] then second
  else if second = [] then first
  else first ++ '/' :: second

/-- `CACHE_INFO_FILE_NAME`. -/
def cacheInfoName : Text := "cache_info".toList

def megabyte : Nat := 1048576

/-! ## Sizes in memory -/

/-- The low bytes of a number, the lowest first. -/
def encodeBytes : Nat → Nat → List UInt8
  | 0, _ => []
  | k + 1, n => UInt8.ofNat n :: encodeBytes k (n / 256)

def decodeBytes : List UInt8 → Nat
  | [] => 0
  | b :: bs => b.toNat + 256 * decodeBytes bs

/-- An `unsigned long long` in memory. -/
def encodeSize (size : Nat) : List UInt8 := encodeBytes 8 size

@[simp] theorem length_encodeBytes (k n : Nat) : (encodeBytes k n).length = k := by
  induction k generalizing n with
  | zero => rfl
  | succ k ih => rw [encodeBytes, List.length_cons, ih]

@[simp] theorem length_encodeSize (size : Nat) : (encodeSize size).length = 8 := length_encodeBytes 8 size

theorem decodeBytes_encodeBytes {k n : Nat} (h : n < 256 ^ k) : decodeBytes (encodeBytes k n) = n := by
  induction k generalizing n with
  | zero =>
      have hn : n = 0 := by simpa using h
      rw [hn]
      rfl
  | succ k ih =>
      have hdiv : n / 256 < 256 ^ k := by
        rw [Nat.div_lt_iff_lt_mul (by decide)]
        rwa [Nat.pow_succ] at h
      rw [encodeBytes, decodeBytes, ih hdiv, UInt8.toNat_ofNat']
      exact Nat.mod_add_div n 256

theorem decodeBytes_encodeSize {size : Nat} (h : size < 2 ^ 64) : decodeBytes (encodeSize size) = size :=
  decodeBytes_encodeBytes (k := 8) h

/-! ## The object -/

structure FileCache where
  cacheDir : Text
  maxCacheSizeInBytes : Nat
  purgeSize : Nat
  cacheInfoFd : Option Nat

/-- `FileCache()`. -/
def FileCache.new : FileCache := ⟨[], 0, 0, none⟩

/-- What stands between `lock_the_cache(LOCK_EX)` and the end of the `CacheLock`. -/
def withCacheLock {α : Type} (fd : Option Nat) (fail : α) (body : Nat → Sys α) : Sys α :=
  match fd with
  -- a lock without a descriptor is not taken, and unlocking it fails
  | none => pure fail
  | some fd => do
    let locked ← call (.flock fd .exclusive false)
    let result ← if locked then body fd else pure fail
    let _ ← call (.unlock fd)
    pure result

/-- What stands between the construction of an `Item` and its destructor. -/
def withItem {α : Type} (fd : Nat) (body : Sys α) : Sys α := do
  let result ← body
  let _ ← call (.close fd)
  pure result

def lockTheItem (fd : Nat) (mode : FlockMode) (nonblock : Bool) : Sys Bool := do
  let locked ← call (.flock fd mode nonblock)
  if locked then
    let _ ← call (.futimes fd)
    pure true
  else pure false

def getFileSize (fd : Nat) : Sys Nat := do
  let size ← call (.fstat fd)
  pure (size.getD 0)

def getCacheInfoSize (fd : Nat) : Sys Nat := do
  let sought ← call (.seek fd 0)
  if sought then
    let bytes ← call (.read fd 8)
    match bytes with
    | none => pure 0
    | some bytes => pure (if bytes.length = 8 then decodeBytes bytes else 0)
  else pure 0

def updateCacheInfoSize (fd size : Nat) : Sys Bool := do
  let sought ← call (.seek fd 0)
  if sought then
    let written ← call (.write fd (encodeSize size))
    pure (written = some 8)
  else pure false

namespace FileCache

variable (fc : FileCache)

/-- The pathname of a key. -/
def keyFileName (key : Text) : Text := pathConcat fc.cacheDir key

def createKey (key : Text) : Sys (Option Nat) := call (.create (fc.keyFileName key))

def filesInCache : Sys (Option (List Text)) := do
  let names ← call (.readdir fc.cacheDir)
  pure (names.map fun names =>
    (names.filter fun n => n ≠ ['.'] ∧ n ≠ ['.', '.'] ∧ n ≠ cacheInfoName).map fc.keyFileName)

def openCacheInfo : Sys (Bool × FileCache) :=
  if fc.cacheDir = [] then pure (false, fc)
  else do
    let created ← call (.create (fc.keyFileName cacheInfoName))
    match created with
    | some fd =>
      let written ← call (.write fd (encodeSize 0))
      pure (written = some 8, { fc with cacheInfoFd := some fd })
    | none =>
      let opened ← call (.openWrite (fc.keyFileName cacheInfoName))
      pure (opened.isSome, { fc with cacheInfoFd := opened })

/-- `initialize`. -/
def initCache (cacheDir : Text) (size purgeSize : Int) : Sys (Bool × FileCache) :=
  if size < 0 ∨ purgeSize < 0 then pure (false, fc)
  else do
    let found ← call (.stat cacheDir)
    let there ← if found.isSome then pure true else do
      let _ ← call (.mkdirP cacheDir)
      let found ← call (.stat cacheDir)
      pure found.isSome
    if there then
      let opened ← openCacheInfo { fc with cacheDir := cacheDir }
      if opened.1 then
        pure (true, { opened.2 with
          maxCacheSizeInBytes := size.toNat
          purgeSize := purgeSize.toNat })
      else pure (false, opened.2)
    else pure (false, fc)

/-- `update_cache_info_size(get_cache_info_size() + get_file_size(fd))`. -/
def addFileSize (info fd : Nat) : Sys Bool := do
  let recorded ← getCacheInfoSize info
  let size ← getFileSize fd
  updateCacheInfoSize info ((recorded + size) % 2 ^ 64)

/-- What `read` returns, call by call, until it returns nothing. -/
def reads (count : Nat) : Nat → List UInt8 → List (List UInt8)
  | 0, _ => []
  | _, [] => []
  | fuel + 1, bytes => bytes.take count :: reads count fuel (bytes.drop count)

/-- The loop that copies the file: each piece that has been read is written. -/
def copyPieces (fd : Nat) : List (List UInt8) → Sys Bool
  | [] => pure true
  | buf :: rest => do
    let written ← call (.write fd buf)
    if written = some buf.length then copyPieces fd rest
    else pure false

/-- `put(key, file_name)`. The loop takes a `read` of the source that fails for the end of it. -/
def put (key fileName : Text) : Sys Bool :=
  withCacheLock fc.cacheInfoFd false fun info => do
    let created ← fc.createKey key
    match created with
    | none => pure false
    | some fd => withItem fd do
      let locked ← lockTheItem fd .exclusive false
      if locked then
        let source ← call (.source fileName)
        match source with
        | none => pure false
        | some source =>
          let copied ← copyPieces fd (reads (min megabyte source.size) source.given.length source.given)
          if copied then addFileSize info fd
          else pure false
      else pure false

def putData (key : Text) (data : List UInt8) : Sys Bool :=
  withCacheLock fc.cacheInfoFd false fun info => do
    let created ← fc.createKey key
    match created with
    | none => pure false
    | some fd => withItem fd do
      let locked ← lockTheItem fd .exclusive false
      if locked then
        let written ← call (.write fd data)
        if written = some data.length then addFileSize info fd
        else pure false
      else pure false

/-- `put(key, item)`, with the descriptor of the `PutItem`. -/
def putItem (key : Text) : Sys (Bool × Option Nat) :=
  withCacheLock fc.cacheInfoFd (false, none) fun _ => do
    let created ← fc.createKey key
    match created with
    | none => pure (false, none)
    | some fd =>
      let locked ← lockTheItem fd .exclusive false
      pure (locked, some fd)

/-- `~PutItem`, and then `~Item`. -/
def destroyPutItem (fd : Option Nat) : Sys Unit := do
  withCacheLock fc.cacheInfoFd () fun info => do
    let recorded ← getCacheInfoSize info
    let size ← match fd with
      | none => pure 0
      | some fd => getFileSize fd
    let _ ← updateCacheInfoSize info ((recorded + size) % 2 ^ 64)
    pure ()
  match fd with
  | none => pure ()
  | some fd =>
    let _ ← call (.close fd)
    pure ()

/-- `get(key, item)`, with the descriptor of the `Item`. -/
def get (key : Text) : Sys (Bool × Option Nat) :=
  withCacheLock fc.cacheInfoFd (false, none) fun _ => do
    let opened ← call (.openRead (fc.keyFileName key))
    match opened with
    | none => pure (false, none)
    | some fd =>
      let locked ← lockTheItem fd .shared true
      pure (locked, some fd)

def del (key : Text) : Sys Bool :=
  withCacheLock fc.cacheInfoFd false fun info => do
    let opened ← call (.openWrite (fc.keyFileName key))
    match opened with
    | none => pure false
    | some fd => withItem fd do
      let locked ← lockTheItem fd .exclusive true
      if locked then
        let size ← getFileSize fd
        let removed ← call (.remove (fc.keyFileName key))
        if removed then
          let recorded ← getCacheInfoSize info
          let left ← call (.subtract recorded size)
          updateCacheInfoSize info left
        else pure false
      else pure false

/-- The loop of `clear`. -/
def removeFiles : List Text → Sys Bool
  | [] => pure true
  | file :: rest => do
    let removed ← call (.remove file)
    if removed then removeFiles rest
    else pure false

def clear : Sys Bool :=
  withCacheLock fc.cacheInfoFd false fun _ => do
    let files ← fc.filesInCache
    match files with
    | none => pure false
    | some files => removeFiles files

/-- `item_info`, with the key that it has in the map: the access time as an `unsigned long`. -/
structure ItemInfo where
  name : Text
  size : Nat
  atime : UInt64

/-- `multimap::insert`: behind all items with the same access time. -/
def insertItem (item : ItemInfo) : List ItemInfo → List ItemInfo
  | [] => [item]
  | x :: xs => if x.atime ≤ item.atime then x :: insertItem item xs else item :: x :: xs

/-- The loop of `purge` that looks at the files. -/
def statFiles : List Text → List ItemInfo → Sys (Option (List ItemInfo))
  | [], items => pure (some items)
  | file :: rest, items => do
    let sb ← call (.stat file)
    match sb with
    | none => pure none
    | some sb => statFiles rest (insertItem ⟨file, sb.1, sb.2.toUInt64⟩ items)

/-- The loop of `purge` that removes files; `removed` counts the bytes. -/
def removeItems (purgeSize : Nat) : List ItemInfo → Nat → Sys (Option Nat)
  | [], removed => pure (some removed)
  | item :: rest, removed =>
    if purgeSize < removed then pure (some removed)
    else do
      let opened ← call (.openWrite item.name)
      match opened with
      | none => pure none
      | some fd =>
        let removed ← withItem fd do
          let locked ← lockTheItem fd .exclusive true
          if locked then
            let gone ← call (.remove item.name)
            pure (if gone then (removed + item.size) % 2 ^ 64 else removed)
          else pure removed
        removeItems purgeSize rest removed

def purge : Sys Bool :=
  withCacheLock fc.cacheInfoFd false fun info => do
    let recorded ← getCacheInfoSize info
    if recorded < fc.maxCacheSizeInBytes then pure true
    else
      let files ← fc.filesInCache
      match files with
      | none => pure false
      | some files =>
        let items ← statFiles files []
        match items with
        | none => pure false
        | some items =>
          let removed ← removeItems fc.purgeSize items 0
          match removed with
          | none => pure false
          | some removed =>
            let left ← call (.subtract recorded removed)
            updateCacheInfoSize info left

end FileCache

/-! ## What a process does with a cache -/

/-- A process with its cache object, the descriptors of its live `PutItem`s and `Item`s and what its
last operation returned. -/
structure Session where
  cache : FileCache
  putItems : List Nat
  items : List Nat
  answer : Bool

def Session.new : Session := ⟨.new, [], [], false⟩

/-- The operations. Between them the holder of a `PutItem` writes to it or moves in it, and an `Item` is
closed. A `PutItem` whose `put` has failed has no descriptor. -/
inductive CacheOp
  | initCache (cacheDir : Text) (size purgeSize : Int)
  | put (key fileName : Text)
  | putData (key : Text) (data : List UInt8)
  | putItem (key : Text)
  | writePutItem (fd : Nat) (bytes : List UInt8)
  | seekPutItem (fd pos : Nat)
  | destroyPutItem (fd : Nat)
  | destroyEmptyPutItem
  | get (key : Text)
  | closeItem (fd : Nat)
  | del (key : Text)
  | clear
  | purge
  deriving DecidableEq

/-- An operation of a process; a process has only its own items. -/
def CacheOp.run : CacheOp → Session → Sys Session
  | .initCache cacheDir size purgeSize, s => do
    let result ← s.cache.initCache cacheDir size purgeSize
    pure { s with cache := result.2, answer := result.1 }
  | .put key fileName, s => do
    let result ← s.cache.put key fileName
    pure { s with answer := result }
  | .putData key data, s => do
    let result ← s.cache.putData key data
    pure { s with answer := result }
  | .putItem key, s => do
    let result ← s.cache.putItem key
    pure { s with putItems := result.2.toList ++ s.putItems, answer := result.1 }
  | .writePutItem fd bytes, s =>
    if fd ∈ s.putItems then do
      let written ← call (.write fd bytes)
      pure { s with answer := written = some bytes.length }
    else pure { s with answer := false }
  | .seekPutItem fd pos, s =>
    if fd ∈ s.putItems then do
      let sought ← call (.seek fd pos)
      pure { s with answer := sought }
    else pure { s with answer := false }
  | .destroyPutItem fd, s =>
    if fd ∈ s.putItems then do
      s.cache.destroyPutItem (some fd)
      pure { s with putItems := s.putItems.erase fd, answer := true }
    else pure { s with answer := false }
  | .destroyEmptyPutItem, s => do
    s.cache.destroyPutItem none
    pure { s with answer := true }
  | .get key, s => do
    let result ← s.cache.get key
    pure { s with items := result.2.toList ++ s.items, answer := result.1 }
  | .closeItem fd, s =>
    if fd ∈ s.items then do
      let closed ← call (.close fd)
      pure { s with items := s.items.erase fd, answer := closed }
    else pure { s with answer := false }
  | .del key, s => do
    let result ← s.cache.del key
    pure { s with answer := result }
  | .clear, s => do
    let result ← s.cache.clear
    pure { s with answer := result }
  | .purge, s => do
    let result ← s.cache.purge
    pure { s with answer := result }

end Skunk.BesUtils
