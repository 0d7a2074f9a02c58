import Mathlib.Data.List.Infix
import Mathlib.Data.List.TakeWhile

/-!
# Pathnames

A pathname is a string of characters; slashes cut it into pieces. An empty piece and `.` stay where
they are, `..` goes to the parent, and the parent of the root is the root. `resolve` walks an absolute
pathname this way from the root and gives the names on the way to the file.

`normalize` walks a relative one, not knowing where it starts: what is left is a number of parents to
go up and then a list of names to go down. `resolve_append` says that this is all there is to know about
it.
-/

namespace Skunk.Posix

/-- A string of characters, without a terminator. -/
abbrev Text : Type := List Char

/-- The part of a string in front of its first NUL: what a C function sees. -/
def cStr (s : Text) : Text := s.takeWhile (· ≠ '\x00')

theorem cStr_of_notMem {s : Text} (h : '\x00' ∉ s) : cStr s = s := by
  rw [cStr, List.takeWhile_eq_self_iff]
  intro c hc
  simpa using ne_of_mem_of_not_mem hc h

theorem cStr_append_of_notMem {a : Text} (h : '\x00' ∉ a) (b : Text) : cStr (a ++ b) = a ++ cStr b := by
  rw [cStr, List.takeWhile_append_of_pos]
  · rfl
  · intro c hc
    simpa using ne_of_mem_of_not_mem hc h

theorem cStr_append_of_mem {a : Text} (h : '\x00' ∈ a) (b : Text) : cStr (a ++ b) = cStr a := by
  induction a with
  | nil => cases h
  | cons c cs ih =>
      by_cases hc : c = '\x00'
      · subst hc
        rfl
      · have hcs : '\x00' ∈ cs := by
          rcases List.mem_cons.mp h with hc' | hcs
          · exact absurd hc'.symm hc
          · exact hcs
        have hstep : ∀ t, cStr (c :: t) = c :: cStr t := fun t => by simp [cStr, hc]
        rw [List.cons_append, hstep, hstep, ih hcs]

theorem notMem_cStr (s : Text) : '\x00' ∉ cStr s := by
  intro h
  simpa using List.mem_takeWhile_imp h

theorem cStr_append_rest (s : Text) : ∃ rest, s = cStr s ++ rest :=
  ⟨s.dropWhile (· ≠ '\x00'), List.takeWhile_append_dropWhile.symm⟩

/-- What stands between the slashes. -/
def pieces : Text → List Text
  | [] => [[]]
  | c :: cs =>
    if c = '/' then [] :: pieces cs
    else match pieces cs with
      | [] => [[c]]
      | p :: ps => (c :: p) :: ps

@[simp] theorem pieces_nil : pieces [] = [[]] := rfl

@[simp] theorem pieces_slash (s : Text) : pieces ('/' :: s) = [] :: pieces s := rfl

theorem pieces_ne_nil (s : Text) : pieces s ≠ [] := by
  cases s with
  | nil => simp
  | cons c cs =>
      rw [pieces]
      split
      · simp
      · split <;> simp

theorem pieces_append_slash (a b : Text) : pieces (a ++ '/' :: b) = pieces a ++ pieces b := by
  induction a with
  | nil => rfl
  | cons c cs ih =>
      by_cases hc : c = '/'
      · subst hc
        rw [List.cons_append, pieces_slash, pieces_slash, ih]
        rfl
      · obtain ⟨p, ps, hps⟩ := List.exists_cons_of_ne_nil (pieces_ne_nil cs)
        simp only [List.cons_append, pieces, hc, if_false, ih, hps]

/-- Where the pieces can be divided, there is a slash. -/
theorem pieces_eq_append {s : Text} {xs ys : List Text} (h : pieces s = xs ++ ys) (hx : xs ≠ [])
    (hy : ys ≠ []) : ∃ a b, s = a ++ '/' :: b ∧ pieces a = xs ∧ pieces b = ys := by
  induction s generalizing xs with
  | nil =>
      obtain ⟨x, xs, rfl⟩ := List.exists_cons_of_ne_nil hx
      obtain ⟨y, ys, rfl⟩ := List.exists_cons_of_ne_nil hy
      simp at h
  | cons c cs ih =>
      obtain ⟨x, xs, rfl⟩ := List.exists_cons_of_ne_nil hx
      by_cases hc : c = '/'
      · subst hc
        rw [pieces_slash, List.cons_append, List.cons.injEq] at h
        obtain ⟨rfl, hrest⟩ := h
        by_cases hxs : xs = []
        · subst hxs
          exact ⟨[], cs, rfl, rfl, hrest⟩
        · obtain ⟨a, b, rfl, ha, hb⟩ := ih hrest hxs
          exact ⟨'/' :: a, b, rfl, by rw [pieces_slash, ha], hb⟩
      · obtain ⟨p, ps, hps⟩ := List.exists_cons_of_ne_nil (pieces_ne_nil cs)
        simp only [pieces, hc, if_false, hps, List.cons_append, List.cons.injEq] at h
        obtain ⟨rfl, hrest⟩ := h
        have hcs : pieces cs = (p :: xs) ++ ys := by
          rw [hps, hrest]
          rfl
        obtain ⟨a, b, rfl, ha, hb⟩ := ih hcs (by simp)
        exact ⟨c :: a, b, rfl, by simp [pieces, hc, ha], hb⟩

theorem pieces_of_notMem {s : Text} (h : '/' ∉ s) : pieces s = [s] := by
  induction s with
  | nil => rfl
  | cons c cs ih =>
      rw [List.mem_cons, not_or] at h
      simp [pieces, Ne.symm h.1, ih h.2]

/-! ## The last slash -/

/-- The last position of a character: `rfind` and `find_last_of`. -/
def rfind (c : Char) : Text → Option Nat
  | [] => none
  | x :: xs =>
    match rfind c xs with
    | some pos => some (pos + 1)
    | none => if x = c then some 0 else none

theorem rfind_eq_none_iff {c : Char} {s : Text} : rfind c s = none ↔ c ∉ s := by
  induction s with
  | nil => simp [rfind]
  | cons x xs ih =>
      rw [rfind]
      cases hxs : rfind c xs with
      | none => simp [← ih, hxs, eq_comm]
      | some pos => simp [← ih, hxs]

/-- What stands in front of the last occurrence, and behind it. -/
theorem rfind_eq_some {c : Char} {s : Text} {pos : Nat} (h : rfind c s = some pos) :
    ∃ rest, s = s.take pos ++ c :: rest ∧ c ∉ rest := by
  induction s generalizing pos with
  | nil => cases h
  | cons x xs ih =>
      rw [rfind] at h
      cases hxs : rfind c xs with
      | some pos' =>
          rw [hxs] at h
          obtain rfl := Option.some.inj h
          obtain ⟨rest, hrest, hc⟩ := ih hxs
          refine ⟨rest, ?_, hc⟩
          rw [List.take_succ_cons, List.cons_append, ← hrest]
      | none =>
          by_cases hx : x = c
          · subst hx
            simp only [hxs, if_true, Option.some.injEq] at h
            subst h
            exact ⟨xs, rfl, rfind_eq_none_iff.mp hxs⟩
          · simp [hxs, hx] at h

theorem rfind_append_cons {c : Char} {a b : Text} (h : c ∉ b) :
    rfind c (a ++ c :: b) = some a.length := by
  induction a with
  | nil =>
      rw [List.nil_append, rfind, rfind_eq_none_iff.mpr h]
      exact if_pos rfl
  | cons x xs ih =>
      rw [List.cons_append, rfind, ih]
      rfl

/-! ## Cutting off the end -/

/-- What stands in front of the slashes, and the whole string, from short to long. -/
def cuts : Text → List Text
  | [] => [[]]
  | c :: cs =>
    if c = '/' then [] :: (cuts cs).map (c :: ·)
    else (cuts cs).map (c :: ·)

theorem mem_cuts {s x : Text} : x ∈ cuts s ↔ x = s ∨ ∃ rest, s = x ++ '/' :: rest := by
  induction s generalizing x with
  | nil => simp [cuts]
  | cons c cs ih =>
      have hmap : x ∈ (cuts cs).map (c :: ·) ↔
          ∃ y, x = c :: y ∧ (y = cs ∨ ∃ rest, cs = y ++ '/' :: rest) := by
        simp only [List.mem_map, ih]
        constructor
        · rintro ⟨y, hy, rfl⟩
          exact ⟨y, rfl, hy⟩
        · rintro ⟨y, rfl, hy⟩
          exact ⟨y, hy, rfl⟩
      have hne : x ≠ [] → (x ∈ (cuts cs).map (c :: ·) ↔
          x = c :: cs ∨ ∃ rest, c :: cs = x ++ '/' :: rest) := by
        intro hx
        obtain ⟨d, y, rfl⟩ := List.exists_cons_of_ne_nil hx
        rw [hmap]
        constructor
        · rintro ⟨y', hxy, hy⟩
          obtain ⟨rfl, rfl⟩ := List.cons.inj hxy
          rcases hy with rfl | ⟨rest, rfl⟩
          · exact .inl rfl
          · exact .inr ⟨rest, rfl⟩
        · rintro (hxs | ⟨rest, hrest⟩)
          · obtain ⟨rfl, rfl⟩ := List.cons.inj hxs
            exact ⟨y, rfl, .inl rfl⟩
          · obtain ⟨rfl, rfl⟩ := List.cons.inj hrest
            exact ⟨y, rfl, .inr ⟨rest, rfl⟩⟩
      rw [cuts]
      by_cases hx : x = []
      · subst hx
        by_cases hc : c = '/' <;> simp [hc]
      · rw [← hne hx]
        split <;> simp [hx]

theorem cuts_of_notMem {s : Text} (h : '/' ∉ s) : cuts s = [s] := by
  induction s with
  | nil => rfl
  | cons c cs ih =>
      rw [List.mem_cons, not_or] at h
      simp [cuts, Ne.symm h.1, ih h.2]

theorem cuts_append_slash (a b : Text) :
    cuts (a ++ '/' :: b) = cuts a ++ (cuts b).map (a ++ '/' :: ·) := by
  induction a with
  | nil => rfl
  | cons c cs ih =>
      rw [List.cons_append, cuts, cuts, ih, List.map_append, List.map_map]
      split <;> rfl

theorem last_slash (s : Text) : '/' ∉ s ∨ ∃ a b, s = a ++ '/' :: b ∧ '/' ∉ b := by
  cases hpos : rfind '/' s with
  | none => exact .inl (rfind_eq_none_iff.mp hpos)
  | some pos =>
      obtain ⟨rest, hrest, hnot⟩ := rfind_eq_some hpos
      exact .inr ⟨s.take pos, rest, hrest, hnot⟩

theorem length_cuts (s : Text) : (cuts s).length = s.count '/' + 1 := by
  induction s with
  | nil => rfl
  | cons c cs ih =>
      rw [cuts]
      by_cases hc : c = '/'
      · simp [hc, ih]
      · simp [hc, ih]

/-- The shortest one holds no slash. -/
theorem head_cuts (s : Text) : (cuts s).head? = some (s.takeWhile (· ≠ '/')) := by
  induction s with
  | nil => rfl
  | cons c cs ih =>
      rw [cuts]
      by_cases hc : c = '/'
      · simp [hc]
      · simp [hc, ih]

/-- Where the pieces can be divided, the string can be cut. -/
theorem exists_cut {s : Text} {front rest : List Text} {name : Text}
    (h : pieces s = front ++ name :: rest) : ∃ x ∈ cuts s, pieces x = front ++ [name] := by
  by_cases hrest : rest = []
  · subst hrest
    exact ⟨s, mem_cuts.mpr (.inl rfl), h⟩
  · have h' : pieces s = (front ++ [name]) ++ rest := by rw [h, List.append_assoc]; rfl
    obtain ⟨a, b, rfl, ha, -⟩ := pieces_eq_append h' (by simp) hrest
    exact ⟨a, mem_cuts.mpr (.inr ⟨b, rfl⟩), ha⟩

/-- Cutting a string goes with cutting what a C function sees of it. -/
theorem cStr_cut {s x : Text} (h : x ∈ cuts s) : cStr x ∈ cuts (cStr s) := by
  rcases mem_cuts.mp h with rfl | ⟨rest, rfl⟩
  · exact mem_cuts.mpr (.inl rfl)
  · by_cases hx : '\x00' ∈ x
    · rw [cStr_append_of_mem hx]
      exact mem_cuts.mpr (.inl rfl)
    · rw [cStr_append_of_notMem hx, cStr_of_notMem hx]
      exact mem_cuts.mpr (.inr ⟨cStr rest, rfl⟩)

theorem exists_cut_of_cStr {s y : Text} (h : y ∈ cuts (cStr s)) : ∃ x ∈ cuts s, cStr x = y := by
  rcases mem_cuts.mp h with rfl | ⟨rest, hrest⟩
  · exact ⟨s, mem_cuts.mpr (.inl rfl), rfl⟩
  · obtain ⟨tail, htail⟩ := cStr_append_rest s
    refine ⟨y, mem_cuts.mpr (.inr ⟨rest ++ tail, ?_⟩), cStr_of_notMem ?_⟩
    · rw [htail, hrest, List.append_assoc]
      rfl
    · intro hy
      apply notMem_cStr s
      rw [hrest]
      exact List.mem_append_left _ hy

theorem pieces_of_cut {s x : Text} (h : x ∈ cuts s) : ∃ rest, pieces s = pieces x ++ rest := by
  rcases mem_cuts.mp h with rfl | ⟨rest, rfl⟩
  · exact ⟨[], (List.append_nil _).symm⟩
  · exact ⟨pieces rest, pieces_append_slash x rest⟩

/-! ## Walking -/

/-- One step of a walk that has come to `dir`. -/
def walk (dir : List Text) (piece : Text) : List Text :=
  if piece = [] ∨ piece = ['.'] then dir
  else if piece = ['.', '.'] then dir.dropLast
  else dir ++ [piece]

/-- The file that an absolute pathname denotes, as the names on the way to it. -/
def resolve (path : Text) : List Text := (pieces path).foldl walk []

/-- One step of a walk from an unknown place: so many parents up, then these names down. -/
def walkUp (s : Nat × List Text) (piece : Text) : Nat × List Text :=
  if piece = [] ∨ piece = ['.'] then s
  else if piece = ['.', '.'] then
    if s.2 = [] then (s.1 + 1, []) else (s.1, s.2.dropLast)
  else (s.1, s.2 ++ [piece])

/-- A relative pathname without the detours: parents up and names down. -/
def normalize (path : Text) : Nat × List Text := (pieces path).foldl walkUp (0, [])

/-- Where `s` leads from `dir`. -/
def place (dir : List Text) (s : Nat × List Text) : List Text :=
  dir.take (dir.length - s.1) ++ s.2

theorem walk_place (dir : List Text) (s : Nat × List Text) (piece : Text) :
    walk (place dir s) piece = place dir (walkUp s piece) := by
  obtain ⟨up, names⟩ := s
  by_cases hstay : piece = [] ∨ piece = ['.']
  · simp only [walk, walkUp, hstay, if_true]
  by_cases hup : piece = ['.', '.']
  · subst hup
    simp only [walk, walkUp, if_neg hstay, if_true, place]
    by_cases hnames : names = []
    · subst hnames
      simp only [List.append_nil, if_true, List.dropLast_eq_take, List.length_take,
        List.take_take]
      congr 1
      omega
    · rw [if_neg hnames, List.dropLast_append_of_ne_nil hnames]
  · simp only [walk, walkUp, if_neg hstay, if_neg hup, place, List.append_assoc]

theorem foldl_walk_place (dir : List Text) (ps : List Text) (s : Nat × List Text) :
    ps.foldl walk (place dir s) = place dir (ps.foldl walkUp s) := by
  induction ps generalizing s with
  | nil => rfl
  | cons p ps ih => rw [List.foldl_cons, List.foldl_cons, walk_place, ih]

/-- A pathname behind a directory's leads where its normal form leads from there. -/
theorem resolve_append (root path : Text) :
    resolve (root ++ '/' :: path) = place (resolve root) (normalize path) := by
  have hstart : resolve root = place (resolve root) (0, []) := by simp [place]
  rw [resolve, pieces_append_slash, List.foldl_append]
  show (pieces path).foldl walk (resolve root) = _
  rw [hstart, foldl_walk_place, ← hstart]
  rfl

/-- It stays inside the directory exactly if the names down begin with those given up. -/
theorem prefix_place_iff (dir : List Text) (s : Nat × List Text) :
    dir <+: place dir s ↔ dir.drop (dir.length - s.1) <+: s.2 := by
  have h : dir.take (dir.length - s.1) ++ dir.drop (dir.length - s.1) <+: place dir s ↔
      dir.drop (dir.length - s.1) <+: s.2 := List.prefix_append_right_inj _
  rw [List.take_append_drop] at h
  exact h

end Skunk.Posix
