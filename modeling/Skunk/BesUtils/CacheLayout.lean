import Skunk.BesUtils.FileCache
import Skunk.BesUtils.Paths

/-!
# Where the files of a cache are

A key leads to the file of that name in the cache directory, however the pathname of the directory is
written. The files there, but for `cache_info`, are the items; what `purge` and `del` keep track of is
their total size, and `cache_info` should hold it.
-/

namespace Skunk.BesUtils

open Effect Posix

/-! ## Where keys lead -/

theorem resolve_append_slash (d : Text) : resolve (d ++ ['/']) = resolve d := by
  rw [resolve, pieces_append_slash, List.foldl_append]
  rfl

theorem resolve_rdropWhile (d : Text) : resolve (d.rdropWhile (· = '/')) = resolve d := by
  induction d using List.reverseRecOn with
  | nil => rfl
  | append_singleton d c ih =>
      by_cases hc : c = '/'
      · subst hc
        rw [List.rdropWhile_concat_pos _ _ _ (by simp), ih, resolve_append_slash]
      · rw [List.rdropWhile_concat_neg _ _ _ (by simpa using hc)]

theorem dropWhile_name {n : Text} (h : IsFileName n) : n.dropWhile (· = '/') = n := by
  cases n with
  | nil => rfl
  | cons c cs =>
      have hc : c ≠ '/' := fun hc => h.2.1 (by rw [hc]; exact List.mem_cons_self)
      rw [List.dropWhile_cons_of_neg (by simpa using hc)]

theorem name_ne_nil {n : Text} (h : IsFileName n) : n ≠ [] := by
  rintro rfl
  exact h.1 (.inl rfl)

/-- The separator of the cache is the default one. -/
theorem pathConcat_eq (firstPart secondPart : Text) :
    pathConcat firstPart secondPart = Paths.pathConcat firstPart secondPart '/' := rfl

/-- The pathname of a name in a directory. -/
theorem pathConcat_name (dir : Text) {n : Text} (h : IsFileName n) :
    pathConcat dir n =
      if dir.rdropWhile (· = '/') = [] then n else dir.rdropWhile (· = '/') ++ '/' :: n := by
  rw [pathConcat_eq, Paths.pathConcat, dropWhile_name h, if_neg (name_ne_nil h)]

theorem notMem_rdropWhile {dir : Text} (h : '\x00' ∉ dir) : '\x00' ∉ dir.rdropWhile (· = '/') :=
  fun hmem => h ((List.rdropWhile_prefix _ _).subset hmem)

theorem cStr_pathConcat {dir n : Text} (hdir : '\x00' ∉ dir) (h : IsFileName n) :
    cStr (pathConcat dir n) = pathConcat dir n := by
  apply cStr_of_notMem
  rw [pathConcat_name dir h]
  split
  · exact h.2.2
  · rw [List.mem_append, List.mem_cons]
    rintro (hmem | hmem | hmem)
    · exact notMem_rdropWhile hdir hmem
    · exact absurd hmem (by decide)
    · exact h.2.2 hmem

theorem resolve_pathConcat (dir : Text) {n : Text} (h : IsFileName n) :
    resolve (pathConcat dir n) = resolve dir ++ [n] := by
  have hname : pieces n = [n] := pieces_of_notMem h.2.1
  rw [← resolve_rdropWhile dir, pathConcat_name dir h]
  split
  next hnil =>
    rw [hnil, resolve, hname]
    exact walk_of_not_special h.1
  · rw [resolve, pieces_append_slash, List.foldl_append, hname]
    exact walk_of_not_special h.1

/-- The pathname of a name can only lead to that name. -/
theorem locate_pathConcat {K : Kernel} {dir n : Text} {loc : List Text} (hdir : '\x00' ∉ dir)
    (h : IsFileName n) (hloc : K.locate (pathConcat dir n) = some loc) : loc = resolve dir ++ [n] := by
  rw [Kernel.locate_eq hloc, cStr_pathConcat hdir h, resolve_pathConcat dir h]

theorem locateFrom_rdropWhile {K : Kernel} {dir : Text} {loc : List Text}
    (h : K.locateFrom [] (pieces dir) = some loc) :
    K.locateFrom [] (pieces (dir.rdropWhile (· = '/'))) = some loc := by
  induction dir using List.reverseRecOn with
  | nil => exact h
  | append_singleton d c ih =>
      by_cases hc : c = '/'
      · subst hc
        rw [List.rdropWhile_concat_pos _ _ _ (by simp)]
        apply ih
        rw [pieces_append_slash, Kernel.locateFrom_append, Option.bind_eq_some_iff] at h
        obtain ⟨mid, hmid, hrest⟩ := h
        rw [hmid]
        simp only [pieces_nil, Kernel.locateFrom] at hrest
        split at hrest
        · exact hrest
        · cases hrest
      · rw [List.rdropWhile_concat_neg _ _ _ (by simpa using hc)]
        exact h

/-- In a directory that can be reached, so can every name. -/
theorem locate_name {K : Kernel} {dir n : Text} (hdir : '\x00' ∉ dir) (h : IsFileName n)
    (hloc : K.locate dir = some (resolve dir)) (hfolder : K.isFolder (resolve dir)) :
    K.locate (pathConcat dir n) = some (resolve dir ++ [n]) := by
  have hpieces : K.locateFrom [] (pieces dir) = some (resolve dir) := by
    rw [Kernel.locate, cStr_of_notMem hdir] at hloc
    split at hloc
    · cases hloc
    · exact hloc
  have hfront := locateFrom_rdropWhile hpieces
  have hlast : K.locateFrom (resolve dir) [n] = some (resolve dir ++ [n]) := by
    rw [Kernel.locateFrom, if_pos hfolder, walk_of_not_special h.1]
    rfl
  have hname : pieces n = [n] := pieces_of_notMem h.2.1
  rw [Kernel.locate, cStr_pathConcat hdir h, pathConcat_name dir h]
  split
  next hnil =>
    rw [hnil, pieces_nil] at hfront
    rw [if_neg (name_ne_nil h), hname]
    rw [Kernel.locateFrom] at hfront
    split at hfront
    next hroot =>
      have hhome : [] = resolve dir := Option.some.inj hfront
      rw [← hhome] at hlast ⊢
      exact hlast
    · cases hfront
  · rw [if_neg (by simp), pieces_append_slash, Kernel.locateFrom_append, hfront, hname]
    exact hlast

theorem isFileName_cacheInfoName : IsFileName cacheInfoName := by decide

/-- A key that can be the name of an item. -/
def IsKey (key : Text) : Prop := IsFileName key ∧ key ≠ cacheInfoName

instance (key : Text) : Decidable (IsKey key) := inferInstanceAs (Decidable (_ ∧ _))

/-- The file is the `cache_info` of the directory. -/
def IsInfoFile (dir : Text) (K : Kernel) (ino : Nat) : Prop :=
  (resolve dir ++ [cacheInfoName], ino) ∈ K.files

/-! ## Sizes -/

/-- An item is any file in the directory but `cache_info`. -/
def IsItem (home loc : List Text) : Prop :=
  loc ≠ [] ∧ loc.dropLast = home ∧ loc ≠ home ++ [cacheInfoName]

instance (home loc : List Text) : Decidable (IsItem home loc) := inferInstanceAs (Decidable (_ ∧ _))

theorem isItem_iff {home loc : List Text} :
    IsItem home loc ↔ ∃ n, loc = home ++ [n] ∧ n ≠ cacheInfoName := by
  constructor
  · rintro ⟨hne, rfl, hinfo⟩
    refine ⟨loc.getLast hne, (List.dropLast_append_getLast hne).symm, fun hn => hinfo ?_⟩
    rw [← hn]
    exact (List.dropLast_append_getLast hne).symm
  · rintro ⟨n, rfl, hn⟩
    exact ⟨by simp, by simp, by simpa using hn⟩

def itemBytes (home : List Text) (K : Kernel) : Nat :=
  (K.files.map fun e => if IsItem home e.1 then (K.data e.2).length else 0).sum

/-- A size as it is read from the front of a file; a file that is too short gives zero. -/
def sizeIn (bytes : List UInt8) : Nat := if 8 ≤ bytes.length then decodeBytes (bytes.take 8) else 0

theorem sizeIn_take (bytes : List UInt8) :
    (if (bytes.take 8).length = 8 then decodeBytes (bytes.take 8) else 0) = sizeIn bytes := by
  unfold sizeIn
  rw [List.length_take]
  by_cases h : 8 ≤ bytes.length
  · rw [if_pos h, if_pos (Nat.min_eq_left h)]
  · rw [if_neg h, if_neg (by omega)]

/-- What is written is read again. -/
theorem sizeIn_overwrite (old : List UInt8) {size : Nat} (h : size < 2 ^ 64) :
    sizeIn (overwrite old 0 (encodeSize size)) = size := by
  have hne : encodeSize size ≠ [] := by
    intro hnil
    have := length_encodeSize size
    rw [hnil] at this
    cases this
  have hlen := length_encodeSize size
  rw [overwrite_start old hne, sizeIn, if_pos (by rw [List.length_append]; omega),
    List.take_append_of_le_length (by omega), List.take_of_length_le (by omega),
    decodeBytes_encodeSize h]

def recordedSize (home : List Text) (K : Kernel) : Nat :=
  match K.files.lookup (home ++ [cacheInfoName]) with
  | some ino => sizeIn (K.data ino)
  | none => 0

theorem recordedSize_eq {home : List Text} {K : Kernel} {ino : Nat}
    (h : K.files.lookup (home ++ [cacheInfoName]) = some ino) : recordedSize home K = sizeIn (K.data ino) := by
  rw [recordedSize, h]

theorem decodeBytes_lt (bytes : List UInt8) : decodeBytes bytes < 256 ^ bytes.length := by
  induction bytes with
  | nil => exact Nat.one_pos
  | cons b bytes ih =>
      have hb : b.toNat < 256 := b.toNat_lt
      rw [decodeBytes, List.length_cons, Nat.pow_succ]
      omega

theorem recordedSize_lt (home : List Text) (K : Kernel) : recordedSize home K < 2 ^ 64 := by
  have hsize : ∀ bytes, sizeIn bytes < 2 ^ 64 := by
    intro bytes
    unfold sizeIn
    split
    next h =>
      have hlt := decodeBytes_lt (bytes.take 8)
      rw [List.length_take, Nat.min_eq_left h] at hlt
      exact hlt
    · exact Nat.two_pow_pos 64
  unfold recordedSize
  split
  · exact hsize _
  · exact Nat.two_pow_pos 64

/-- A sum over a list without repetitions changes only by what changes at one element. -/
theorem sum_change {α : Type} (w w' : α → Nat) {l : List α} (hl : l.Nodup) {e : α} (he : e ∈ l)
    (h : ∀ x ∈ l, x ≠ e → w' x = w x) :
    (l.map w').sum + w e = (l.map w).sum + w' e := by
  induction l with
  | nil => cases he
  | cons x l ih =>
      rw [List.nodup_cons] at hl
      rw [List.map_cons, List.map_cons, List.sum_cons, List.sum_cons]
      rcases List.mem_cons.mp he with rfl | he
      · have hsame : l.map w' = l.map w := by
          apply List.map_congr_left
          intro y hy
          exact h y (List.mem_cons_of_mem _ hy) fun hye => hl.1 (hye ▸ hy)
        rw [hsame]
        omega
      · have hne : x ≠ e := fun hxe => hl.1 (hxe ▸ he)
        have := ih hl.2 he fun y hy => h y (List.mem_cons_of_mem _ hy)
        rw [h x List.mem_cons_self hne]
        omega

end Skunk.BesUtils
