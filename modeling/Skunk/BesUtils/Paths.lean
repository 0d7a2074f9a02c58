import Mathlib.Data.UInt
import Skunk.BesUtils.Explode
import Skunk.Text.Search
import Skunk.Text.Spacing

/-!
# Path texts

The functions of `BESUtil` that put path texts together and take them apart look at separators only, and
what they make of the separators of a path is arithmetic on the form of it that `Spaced` is.

`normalize_path` replaces two separators by one in a single pass, which leaves half of each run, and takes
one off at an end. So a run of three is too long for it (`normalizePath_iff`). `pathConcat` takes off all
the separators it finds and is associative (`pathConcat_joins`), and what `assemblePath` makes of it is
what its comment says, unless the first part is nothing but the slash in front (`assemblePath_iff`).
-/

namespace Skunk.BesUtils.Paths

open Skunk.Posix Skunk.Text Skunk.BesUtils.Explode

/-! ## `replace_all` -/

/-- The loop of `replace_all`, with what is left of the string and the replacements that are made in it.
It goes on behind the replacement; with nothing to find it would not end. -/
def replaceAllFrom (findThis replaceWithThis : Text) (hne : findThis ≠ []) (rest : Text) :
    Text × UInt32 :=
  match _h : findSub findThis rest with
  | none => (rest, 0)
  | some pos =>
    let behind := replaceAllFrom findThis replaceWithThis hne (rest.drop (pos + findThis.length))
    (rest.take pos ++ (replaceWithThis ++ behind.1), behind.2 + 1)
termination_by rest.length
decreasing_by
  have := findSub_le _h
  have := List.length_pos_iff.mpr hne
  rw [List.length_drop]
  omega

def replaceAll (s findThis replaceWithThis : Text) (hne : findThis ≠ []) : Text × UInt32 :=
  replaceAllFrom findThis replaceWithThis hne s

section

variable {findThis replaceWithThis : Text} {hne : findThis ≠ []}

theorem replaceAllFrom_nil : (replaceAllFrom findThis replaceWithThis hne []).1 = [] := by
  rw [replaceAllFrom, findSub, if_neg hne]

theorem replaceAllFrom_none {rest : Text} (h : findSub findThis rest = none) :
    replaceAllFrom findThis replaceWithThis hne rest = (rest, 0) := by
  rw [replaceAllFrom]
  split
  · rfl
  next hsome => rw [h] at hsome; cases hsome

theorem replaceAllFrom_some {rest : Text} {pos : Nat} (h : findSub findThis rest = some pos) :
    replaceAllFrom findThis replaceWithThis hne rest =
      let behind := replaceAllFrom findThis replaceWithThis hne (rest.drop (pos + findThis.length))
      (rest.take pos ++ (replaceWithThis ++ behind.1), behind.2 + 1) := by
  rw [replaceAllFrom]
  split
  next hnone => rw [h] at hnone; cases hnone
  next hsome =>
    rw [h] at hsome
    cases hsome
    rfl

theorem replaceAllFrom_cons (c : Char) (cs : Text) :
    (replaceAllFrom findThis replaceWithThis hne (c :: cs)).1 =
      if findThis <+: c :: cs then
        replaceWithThis ++
          (replaceAllFrom findThis replaceWithThis hne ((c :: cs).drop findThis.length)).1
      else c :: (replaceAllFrom findThis replaceWithThis hne cs).1 := by
  by_cases hfits : findThis <+: c :: cs
  · rw [if_pos hfits, replaceAllFrom_some (findSub_of_fits hfits)]
    dsimp only
    rw [List.take_zero, List.nil_append, Nat.zero_add]
  · have hnext := findSub_of_not hfits
    rw [if_neg hfits]
    cases hcs : findSub findThis cs with
    | none =>
        rw [hcs] at hnext
        rw [replaceAllFrom_none hnext, replaceAllFrom_none hcs]
    | some pos =>
        rw [hcs] at hnext
        rw [replaceAllFrom_some hnext, replaceAllFrom_some hcs]
        dsimp only
        rw [List.take_succ_cons, List.cons_append, Nat.add_right_comm, List.drop_succ_cons]

end

/-- With one separator for two it is the pass that halves. -/
theorem replaceAll_double (sep : Char) (s : Text) :
    (replaceAll s [sep, sep] [sep] (List.cons_ne_nil _ _)).1 = halveRuns sep s := by
  show (replaceAllFrom [sep, sep] [sep] _ s).1 = _
  fun_induction halveRuns sep s with
  | case1 => exact replaceAllFrom_nil
  | case2 c =>
      rw [replaceAllFrom_cons, if_neg (by simp [List.cons_prefix_cons]), replaceAllFrom_nil]
  | case3 c d s hboth ih =>
      obtain ⟨rfl, rfl⟩ := hboth
      rw [replaceAllFrom_cons, if_pos (by simp)]
      exact congrArg (d :: ·) ih
  | case4 c d s hnot ih =>
      rw [replaceAllFrom_cons, if_neg, ih]
      intro hfits
      rw [List.cons_prefix_cons, List.singleton_prefix_cons_iff] at hfits
      exact hnot ⟨hfits.1.symm, hfits.2.symm⟩

/-! ## `normalize_path` -/

/-- The part of `normalize_path` that sees to the leading separator. -/
def fitLeading (leadingSeparator : Bool) (separatorChar : Char) (path : Text) : Text :=
  if leadingSeparator then
    if path.head? ≠ some separatorChar then separatorChar :: path else path
  else if path.head? = some separatorChar then path.drop 1 else path

/-- The part that sees to the trailing one. -/
def fitTrailing (trailingSeparator : Bool) (separatorChar : Char) (path : Text) : Text :=
  if trailingSeparator then
    if path.getLast? ≠ some separatorChar then path ++ [separatorChar] else path
  else if path.getLast? = some separatorChar then path.take (path.length - 1) else path

def normalizePath (rawPath : Text) (leadingSeparator trailingSeparator : Bool) (separator : Text) :
    Except BesInternalError Text :=
  match separator with
  | [separatorChar] =>
    let path := (replaceAll rawPath [separatorChar, separatorChar] separator (List.cons_ne_nil _ _)).1
    let path := if path = [] then separator else path
    -- a lone separator is returned whatever the flags are
    if path = separator then .ok path
    else
      let path := fitLeading leadingSeparator separatorChar path
      .ok (fitTrailing trailingSeparator separatorChar path)
  | _ =>
    .error ⟨"Path separators must be a single character. The string '".toList ++ separator ++
      "' does not qualify.".toList⟩

/-- How many separators `normalize_path` leaves at an end where so many stand: one is put there or taken
off. -/
def fit (flag : Bool) (n : Nat) : Nat := if flag then max n 1 else n - 1

/-- It is as many as there should be if there was one at most. -/
theorem fit_iff (flag : Bool) (n : Nat) :
    fit flag n < 2 ∧ (0 < fit flag n ↔ flag = true) ↔ n ≤ 1 := by
  cases flag
  · show n - 1 < 2 ∧ (0 < n - 1 ↔ false = true) ↔ n ≤ 1
    simp only [Bool.false_eq_true, iff_false]
    omega
  · show max n 1 < 2 ∧ (0 < max n 1 ↔ true = true) ↔ n ≤ 1
    simp only [iff_true]
    omega

section

variable {sep : Char} (S : Spaced sep) (leadingSeparator trailingSeparator : Bool)

theorem fitLeading_text : fitLeading leadingSeparator sep S.text =
    (S.withEnds (fit leadingSeparator S.lead) S.trail).text := by
  simp only [fitLeading, ne_eq, S.head?_text]
  cases hlead : S.lead with
  | zero => cases leadingSeparator <;> simp [fit, Spaced.text, Spaced.body, Spaced.withEnds, hlead]
  | succ n =>
      cases leadingSeparator <;>
        simp [fit, Spaced.text, Spaced.body, Spaced.withEnds, hlead, List.replicate_succ]

theorem fitTrailing_text : fitTrailing trailingSeparator sep S.text =
    (S.withEnds S.lead (fit trailingSeparator S.trail)).text := by
  simp only [fitTrailing, ne_eq, S.getLast?_text, ← List.dropLast_eq_take]
  cases htrail : S.trail with
  | zero => cases trailingSeparator <;> simp [fit, Spaced.text, Spaced.body, Spaced.withEnds, htrail]
  | succ n =>
      cases trailingSeparator <;>
        simp [fit, Spaced.text, Spaced.body, Spaced.withEnds, htrail, List.replicate_succ',
          ← List.append_assoc]

theorem text_ne_singleton : S.text ≠ [sep] := by
  intro h
  apply S.words_text_ne_nil
  rw [h]
  exact words_replicate 1

/-- What becomes of the separators of a path with words. -/
theorem normalizePath_text : normalizePath S.text leadingSeparator trailingSeparator [sep] =
    .ok (S.halve.withEnds (fit leadingSeparator S.halve.lead) (fit trailingSeparator S.halve.trail)).text := by
  unfold normalizePath
  dsimp only
  rw [replaceAll_double, Spaced.halveRuns_text, if_neg S.halve.text_ne_nil,
    if_neg (text_ne_singleton S.halve), fitLeading_text, fitTrailing_text]
  rfl

theorem fitLeading_blank (n : Nat) : fitLeading leadingSeparator sep (List.replicate (n + 1) sep) =
    List.replicate (fit leadingSeparator (n + 1)) sep := by
  cases leadingSeparator <;> simp [fitLeading, fit, List.replicate_succ]

theorem fitTrailing_blank (n : Nat) :
    fitTrailing trailingSeparator sep (List.replicate (n + 1) sep) =
      List.replicate (fit trailingSeparator (n + 1)) sep := by
  cases trailingSeparator <;> simp [fitTrailing, fit, List.replicate_succ']

/-- What becomes of a path without words. -/
theorem normalizePath_blank (n : Nat) :
    normalizePath (List.replicate n sep) leadingSeparator trailingSeparator [sep] =
      .ok (List.replicate (if (n + 1) / 2 ≤ 1 then 1
        else fit trailingSeparator (fit leadingSeparator ((n + 1) / 2))) sep) := by
  unfold normalizePath
  dsimp only
  rw [replaceAll_double, halveRuns_replicate]
  obtain hsmall | hlarge := le_or_gt ((n + 1) / 2) 1
  · -- nothing is left, or one separator, and both give that
    rw [if_pos hsmall]
    obtain hk | hk : (n + 1) / 2 = 0 ∨ (n + 1) / 2 = 1 := by omega
    · rw [hk, if_pos List.replicate_zero, if_pos rfl]
      rfl
    · have hne : List.replicate 1 sep ≠ [] := by simp
      rw [hk, if_neg hne, if_pos List.replicate_one, List.replicate_one]
  · -- at least two, and both ends are fitted
    obtain ⟨k, hk⟩ : ∃ k, (n + 1) / 2 = k + 2 := ⟨(n + 1) / 2 - 2, by omega⟩
    obtain ⟨m, hm⟩ : ∃ m, fit leadingSeparator (k + 2) = m + 1 := by
      cases leadingSeparator
      · exact ⟨k, rfl⟩
      · exact ⟨k + 1, by simp [fit]⟩
    have hne : List.replicate (k + 2) sep ≠ [] := by simp
    have hlong : List.replicate (k + 2) sep ≠ [sep] := by simp [List.replicate_succ]
    rw [hk, if_neg hne, if_neg hlong, fitLeading_blank, hm, fitTrailing_blank,
      if_neg (by omega)]

/-- The words stay, and a separator of one character is always accepted. -/
theorem exists_normalizePath (sep : Char) (rawPath : Text) (leadingSeparator trailingSeparator : Bool) :
    ∃ path, normalizePath rawPath leadingSeparator trailingSeparator [sep] = .ok path ∧
      words sep path = words sep rawPath := by
  obtain ⟨n, rfl⟩ | ⟨S, rfl⟩ := blank_or_spaced sep rawPath
  · exact ⟨_, normalizePath_blank _ _ n, by rw [words_replicate, words_replicate]⟩
  · refine ⟨_, normalizePath_text S _ _, ?_⟩
    rw [Spaced.words_text, Spaced.words_text, Spaced.parts_withEnds, Spaced.parts_halve]

end

/-- What `normalize_path` is for. -/
structure Normalized (sep : Char) (leadingSeparator trailingSeparator : Bool) (rawPath path : Text) :
    Prop where
  single : ¬ [sep, sep] <:+: path
  begins : path.head? = some sep ↔ leadingSeparator = true
  ends : path.getLast? = some sep ↔ trailingSeparator = true
  parts : words sep path = words sep rawPath

section

variable {sep : Char} {leadingSeparator trailingSeparator : Bool}

/-- A path that is normalized stays as it is. -/
theorem normalizePath_eq_self {T : Spaced sep} {rawPath : Text}
    (h : Normalized sep leadingSeparator trailingSeparator rawPath T.text) :
    normalizePath T.text leadingSeparator trailingSeparator [sep] = .ok T.text := by
  obtain ⟨hsingle, hbegins, hends, -⟩ := h
  rw [normalizePath_text, Spaced.halve_eq_self hsingle]
  obtain ⟨hlead, -, htrail⟩ := (T.not_replicate_infix_text (k := 2) Nat.two_pos).mp hsingle
  rw [T.head?_text] at hbegins
  rw [T.getLast?_text] at hends
  -- where the ends are as the flags ask, nothing is put there or taken off
  have hfit : ∀ (flag : Bool) (n : Nat), n < 2 → (0 < n ↔ flag = true) → fit flag n = n := by
    intro flag n hn hflag
    cases flag <;> simp [fit] at hflag ⊢ <;> omega
  rw [hfit _ _ hlead hbegins, hfit _ _ htrail hends]
  rfl

/-- What is made of a path is normalized exactly if no run of separators in it is longer than two. -/
theorem normalized_text_iff (S : Spaced sep) :
    Normalized sep leadingSeparator trailingSeparator S.text
        (S.halve.withEnds (fit leadingSeparator S.halve.lead) (fit trailingSeparator S.halve.trail)).text ↔
      ¬ [sep, sep, sep] <:+: S.text := by
  -- both sides speak of the runs: those of the path are the halves of those of the raw path
  have hraw := S.not_replicate_infix_text (k := 3) (by omega)
  have hpath := (S.halve.withEnds (fit leadingSeparator S.halve.lead)
    (fit trailingSeparator S.halve.trail)).not_replicate_infix_text (k := 2) (by omega)
  have hgaps : (∀ o ∈ S.halve.others, o.1 < 2) ↔ ∀ o ∈ S.others, o.1 < 3 := by
    rw [Spaced.halve, List.forall_mem_map]
    apply forall₂_congr
    intro o ho
    show (o.1 + 1) / 2 < 2 ↔ o.1 < 3
    omega
  have hends : ∀ n, (n + 1) / 2 ≤ 1 ↔ n < 3 := by
    intro n
    omega
  refine Iff.trans ?_ hraw.symm
  rw [← hgaps, ← hends S.lead, ← hends S.trail]
  constructor
  · rintro ⟨hsingle, hbegins, hends, -⟩
    obtain ⟨hlead, hothers, htrail⟩ := hpath.mp hsingle
    rw [Spaced.head?_text] at hbegins
    rw [Spaced.getLast?_text] at hends
    exact ⟨(fit_iff _ _).mp ⟨hlead, hbegins⟩, hothers, (fit_iff _ _).mp ⟨htrail, hends⟩⟩
  · rintro ⟨hlead, hothers, htrail⟩
    obtain ⟨hlead, hbegins⟩ := (fit_iff leadingSeparator _).mpr hlead
    obtain ⟨htrail, hends⟩ := (fit_iff trailingSeparator _).mpr htrail
    constructor
    · exact hpath.mpr ⟨hlead, hothers, htrail⟩
    · rw [Spaced.head?_text]
      exact hbegins
    · rw [Spaced.getLast?_text]
      exact hends
    · rw [Spaced.words_text, Spaced.words_text, Spaced.parts_withEnds, Spaced.parts_halve]

/-- `normalize_path` does what it is for, and what it makes stays as it is, exactly if no three separators
stand next to each other. -/
theorem normalizePath_iff {rawPath : Text} (h : ∃ c ∈ rawPath, c ≠ sep)
    (leadingSeparator trailingSeparator : Bool) :
    (∃ path, normalizePath rawPath leadingSeparator trailingSeparator [sep] = .ok path ∧
        Normalized sep leadingSeparator trailingSeparator rawPath path ∧
        normalizePath path leadingSeparator trailingSeparator [sep] = .ok path) ↔
      ¬ [sep, sep, sep] <:+: rawPath := by
  have hwords : words sep rawPath ≠ [] := by
    obtain ⟨c, hc, hne⟩ := h
    intro hnil
    exact hne (words_eq_nil_iff.mp hnil c hc)
  obtain ⟨S, rfl⟩ := exists_spaced hwords
  rw [← normalized_text_iff S]
  constructor
  · rintro ⟨path, hpath, hnormalized, -⟩
    rw [normalizePath_text] at hpath
    cases hpath
    exact hnormalized
  · intro hnormalized
    exact ⟨_, normalizePath_text S _ _, hnormalized, normalizePath_eq_self hnormalized⟩

/-- Two slashes are put right. -/
theorem normalizePath_iff_two :
    (∃ path, normalizePath "a//b".toList true false ['/'] = .ok path ∧
        Normalized '/' true false "a//b".toList path ∧ normalizePath path true false ['/'] = .ok path) ↔
      ¬ ['/', '/', '/'] <:+: "a//b".toList :=
  normalizePath_iff ⟨'a', by decide, by decide⟩ true false

/-- Of three slashes two are left. -/
theorem normalizePath_three :
    ¬ ∀ (sep : Char) (rawPath : Text), (∃ c ∈ rawPath, c ≠ sep) →
      ∀ leadingSeparator trailingSeparator, ∃ path,
        normalizePath rawPath leadingSeparator trailingSeparator [sep] = .ok path ∧
          Normalized sep leadingSeparator trailingSeparator rawPath path ∧
          normalizePath path leadingSeparator trailingSeparator [sep] = .ok path := by
  intro hall
  obtain ⟨path, hpath, hnormalized, -⟩ := hall '/' "a///b".toList ⟨'a', by decide, by decide⟩ false false
  have hdouble : normalizePath "a///b".toList false false ['/'] = .ok "a//b".toList := by
    unfold normalizePath
    dsimp only
    rw [replaceAll_double]
    rfl
  rw [hdouble] at hpath
  cases hpath
  exact hnormalized.single (by decide)

end

/-! ## `pathConcat` -/

def pathConcat (firstPart secondPart : Text) (separator : Char) : Text :=
  let first := firstPart.rdropWhile (· = separator)
  let second := secondPart.dropWhile (· = separator)
  if first = [] then second
  else if second = [] then first
  else first ++ separator :: second

section

variable {sep : Char}

theorem rdropWhile_blank (n : Nat) : (List.replicate n sep).rdropWhile (· = sep) = [] := by
  simp [List.rdropWhile_eq_nil_iff]

theorem dropWhile_blank (n : Nat) : (List.replicate n sep).dropWhile (· = sep) = [] := by
  simp

/-- A first part without a word is not there. -/
theorem pathConcat_blank_left (n : Nat) (secondPart : Text) :
    pathConcat (List.replicate n sep) secondPart sep = secondPart.dropWhile (· = sep) := by
  unfold pathConcat
  exact if_pos (rdropWhile_blank n)

theorem pathConcat_blank_right (S : Spaced sep) (n : Nat) :
    pathConcat S.text (List.replicate n sep) sep = (S.withEnds S.lead 0).text := by
  unfold pathConcat
  dsimp only
  rw [S.rdropWhile_text, if_neg (Spaced.text_ne_nil _), dropWhile_blank, if_pos rfl]

theorem pathConcat_text (S T : Spaced sep) : pathConcat S.text T.text sep = (S.join T).text := by
  unfold pathConcat
  dsimp only
  rw [S.rdropWhile_text, T.dropWhile_text, if_neg (Spaced.text_ne_nil _),
    if_neg (Spaced.text_ne_nil _), Spaced.text_join]

/-- The separators at the join do not matter. -/
theorem pathConcat_rdropWhile (a b : Text) :
    pathConcat (a.rdropWhile (· = sep)) b sep = pathConcat a b sep := by
  unfold pathConcat
  rw [List.rdropWhile_idempotent]

theorem pathConcat_dropWhile (a b : Text) :
    pathConcat a (b.dropWhile (· = sep)) sep = pathConcat a b sep := by
  unfold pathConcat
  rw [List.dropWhile_idempotent]

/-- Those in front of the first part stay or go with it. -/
theorem dropWhile_pathConcat (b c : Text) :
    (pathConcat b c sep).dropWhile (· = sep) = pathConcat (b.dropWhile (· = sep)) c sep := by
  obtain ⟨m, rfl⟩ | ⟨T, rfl⟩ := blank_or_spaced sep b
  · have hnil : pathConcat (List.replicate 0 sep) c sep = _ := pathConcat_blank_left 0 c
    rw [pathConcat_blank_left, List.dropWhile_idempotent, dropWhile_blank]
    exact hnil.symm
  · rw [T.dropWhile_text]
    obtain ⟨n, rfl⟩ | ⟨U, rfl⟩ := blank_or_spaced sep c
    · rw [pathConcat_blank_right, pathConcat_blank_right, Spaced.dropWhile_text]
      rfl
    · rw [pathConcat_text, pathConcat_text, Spaced.dropWhile_text]
      rfl

theorem pathConcat_assoc (a b c : Text) :
    pathConcat (pathConcat a b sep) c sep = pathConcat a (pathConcat b c sep) sep := by
  obtain ⟨k, rfl⟩ | ⟨S, rfl⟩ := blank_or_spaced sep a
  · rw [pathConcat_blank_left, pathConcat_blank_left, dropWhile_pathConcat]
  obtain ⟨m, rfl⟩ | ⟨T, rfl⟩ := blank_or_spaced sep b
  · -- without a word in the middle, its separators go with those at the join
    rw [pathConcat_blank_left, pathConcat_blank_right, pathConcat_dropWhile, ← S.rdropWhile_text,
      pathConcat_rdropWhile]
  obtain ⟨n, rfl⟩ | ⟨U, rfl⟩ := blank_or_spaced sep c
  · rw [pathConcat_text, pathConcat_blank_right, pathConcat_blank_right, pathConcat_text]
    rfl
  · rw [pathConcat_text, pathConcat_text, pathConcat_text, pathConcat_text, Spaced.join_assoc]

theorem words_pathConcat (a b : Text) :
    words sep (pathConcat a b sep) = words sep a ++ words sep b := by
  obtain ⟨k, rfl⟩ | ⟨S, rfl⟩ := blank_or_spaced sep a
  · rw [pathConcat_blank_left, words_replicate, List.nil_append]
    obtain ⟨m, rfl⟩ | ⟨T, rfl⟩ := blank_or_spaced sep b
    · rw [dropWhile_blank, words_replicate, words_nil]
    · rw [T.dropWhile_text, Spaced.words_text, Spaced.words_text, Spaced.parts_withEnds]
  · obtain ⟨m, rfl⟩ | ⟨T, rfl⟩ := blank_or_spaced sep b
    · rw [pathConcat_blank_right, words_replicate, List.append_nil, Spaced.words_text,
        Spaced.words_text, Spaced.parts_withEnds]
    · rw [pathConcat_text, Spaced.words_text, Spaced.words_text, Spaced.words_text, Spaced.parts_join]

/-- `pathConcat` is associative and puts the components of the second part behind those of the first, with
one separator between them. -/
theorem pathConcat_joins (separator : Char) (a b c : Text) :
    pathConcat (pathConcat a b separator) c separator =
        pathConcat a (pathConcat b c separator) separator ∧
      words separator (pathConcat a b separator) = words separator a ++ words separator b ∧
      (words separator a ≠ [] → words separator b ≠ [] → ∃ front back,
        pathConcat a b separator = front ++ separator :: back ∧
          front.getLast? ≠ some separator ∧ back.head? ≠ some separator ∧
          words separator front = words separator a ∧ words separator back = words separator b) := by
  refine ⟨pathConcat_assoc a b c, words_pathConcat a b, ?_⟩
  intro ha hb
  obtain ⟨S, rfl⟩ := exists_spaced ha
  obtain ⟨T, rfl⟩ := exists_spaced hb
  refine ⟨(S.withEnds S.lead 0).text, (T.withEnds 0 T.trail).text, ?_, ?_, ?_, ?_, ?_⟩
  · rw [pathConcat_text, Spaced.text_join]
  · rw [ne_eq, Spaced.getLast?_text]
    exact Nat.lt_irrefl 0
  · rw [ne_eq, Spaced.head?_text]
    exact Nat.lt_irrefl 0
  · rw [Spaced.words_text, Spaced.words_text, Spaced.parts_withEnds]
  · rw [Spaced.words_text, Spaced.words_text, Spaced.parts_withEnds]

end

/-! ## `assemblePath` -/

def assemblePath (firstPart secondPart : Text) (leadingSlash trailingSlash : Bool) : Text :=
  let newPath := pathConcat firstPart secondPart '/'
  let newPath :=
    if leadingSlash then
      if newPath = [] then ['/']
      else if newPath.head? ≠ some '/' then '/' :: newPath else newPath
    else newPath
  if trailingSlash then
    if newPath = [] ∨ newPath.getLast? ≠ some '/' then newPath ++ ['/'] else newPath
  else newPath.rdropWhile (· = '/')

/-- What the comment of `assemblePath` says about the path. -/
structure Assembled (firstPart secondPart : Text) (leadingSlash trailingSlash : Bool) (newPath : Text) :
    Prop where
  single : ¬ ['/', '/'] <:+: newPath
  parts : words '/' newPath = words '/' firstPart ++ words '/' secondPart
  begins : newPath.head? = some '/' ↔ leadingSlash = true ∨ firstPart.head? = some '/'
  ends : newPath.getLast? = some '/' ↔ trailingSlash = true

section

variable (leadingSlash trailingSlash : Bool)

/-- What `assemblePath` does to the path of `pathConcat`, if it has a component. -/
theorem assemblePath_text {firstPart secondPart : Text} {P : Spaced '/'}
    (h : pathConcat firstPart secondPart '/' = P.text) :
    assemblePath firstPart secondPart leadingSlash trailingSlash =
      (P.withEnds (if leadingSlash then max P.lead 1 else P.lead)
        (if trailingSlash then max P.trail 1 else 0)).text := by
  have hlead : (if leadingSlash then
      if P.text = [] then ['/'] else if P.text.head? ≠ some '/' then '/' :: P.text else P.text
      else P.text) = (P.withEnds (if leadingSlash then max P.lead 1 else P.lead) P.trail).text := by
    cases leadingSlash
    · rfl
    · rw [if_pos rfl, if_pos rfl, if_neg P.text_ne_nil]
      exact fitLeading_text P true
  have htrail : ∀ Q : Spaced '/', (if trailingSlash then
      if Q.text = [] ∨ Q.text.getLast? ≠ some '/' then Q.text ++ ['/'] else Q.text
      else Q.text.rdropWhile (· = '/')) =
        (Q.withEnds Q.lead (if trailingSlash then max Q.trail 1 else 0)).text := by
    intro Q
    cases trailingSlash
    · exact Q.rdropWhile_text
    · simp only [Q.text_ne_nil, false_or]
      exact fitTrailing_text Q true
  unfold assemblePath
  dsimp only
  rw [h, hlead, htrail]
  rfl

/-- The path is as documented unless the first slash is missing or there is one that should not be. -/
theorem assembled_iff {firstPart secondPart : Text} {P : Spaced '/'}
    (h : pathConcat firstPart secondPart '/' = P.text) (hsingle : ¬ ['/', '/'] <:+: P.text) :
    Assembled firstPart secondPart leadingSlash trailingSlash
        (assemblePath firstPart secondPart leadingSlash trailingSlash) ↔
      (leadingSlash = true ∨ (0 < P.lead ↔ firstPart.head? = some '/')) := by
  have hparts : words '/' (pathConcat firstPart secondPart '/') = _ :=
    words_pathConcat firstPart secondPart
  obtain ⟨hlead, hothers, htrail⟩ := (P.not_replicate_infix_text (k := 2) Nat.two_pos).mp hsingle
  rw [h, Spaced.words_text] at hparts
  rw [assemblePath_text leadingSlash trailingSlash h]
  constructor
  · rintro ⟨-, -, hbegins, -⟩
    rw [Spaced.head?_text] at hbegins
    cases leadingSlash
    · right
      simpa [Spaced.withEnds] using hbegins
    · exact .inl rfl
  · intro hbegins
    constructor
    · apply (Spaced.not_replicate_infix_text _ (k := 2) Nat.two_pos).mpr
      refine ⟨?_, hothers, ?_⟩
      · show (if leadingSlash then max P.lead 1 else P.lead) < 2
        split <;> omega
      · show (if trailingSlash then max P.trail 1 else 0) < 2
        split <;> omega
    · rw [Spaced.words_text, Spaced.parts_withEnds, hparts]
    · rw [Spaced.head?_text]
      cases leadingSlash
      · simpa [Spaced.withEnds] using hbegins
      · simp [Spaced.withEnds]
    · rw [Spaced.getLast?_text]
      cases trailingSlash <;> simp [Spaced.withEnds]

end

/-- What `assemblePath` returns is what its comment says, unless the first part is the root and no leading
slash is asked for: then it is not absolute. -/
theorem assemblePath_iff {firstPart secondPart : Text} (hfirst : ¬ ['/', '/'] <:+: firstPart)
    (hsecond : ¬ ['/', '/'] <:+: secondPart)
    (hpart : (∃ c ∈ firstPart, c ≠ '/') ∨ ∃ c ∈ secondPart, c ≠ '/') (leadingSlash trailingSlash : Bool) :
    Assembled firstPart secondPart leadingSlash trailingSlash
        (assemblePath firstPart secondPart leadingSlash trailingSlash) ↔
      (firstPart = ['/'] → leadingSlash = true) := by
  have hblank : ∀ n, ¬ ∃ c ∈ List.replicate n '/', c ≠ '/' := by
    rintro n ⟨c, hc, hne⟩
    exact hne (List.eq_of_mem_replicate hc)
  obtain ⟨k, rfl⟩ | ⟨S, rfl⟩ := blank_or_spaced '/' firstPart
  · -- the second part is all there is
    obtain ⟨m, rfl⟩ | ⟨T, rfl⟩ := blank_or_spaced '/' secondPart
    · exact absurd hpart (not_or.mpr ⟨hblank k, hblank m⟩)
    have hconcat : pathConcat (List.replicate k '/') T.text '/' = (T.withEnds 0 T.trail).text := by
      rw [pathConcat_blank_left, T.dropWhile_text]
    have hsingle : ¬ ['/', '/'] <:+: (T.withEnds 0 T.trail).text := by
      obtain ⟨-, hothers, htrail⟩ := (T.not_replicate_infix_text (k := 2) Nat.two_pos).mp hsecond
      exact (Spaced.not_replicate_infix_text _ (k := 2) Nat.two_pos).mpr ⟨Nat.two_pos, hothers, htrail⟩
    rw [assembled_iff leadingSlash trailingSlash hconcat hsingle]
    have hk : k < 2 := by
      by_contra hk
      apply hfirst
      obtain ⟨n, rfl⟩ := Nat.exists_eq_add_of_le (Nat.not_lt.mp hk)
      rw [List.replicate_add]
      exact (List.prefix_append _ _).isInfix
    -- the path begins with a component, so it is the right one only if the first part is empty
    have hroot : ¬ 0 < (T.withEnds 0 T.trail).lead := Nat.lt_irrefl 0
    obtain rfl | rfl : k = 0 ∨ k = 1 := by omega
    · simp [hroot]
    · simp [hroot]
  · -- the slash in front of the first part's components is kept
    have hnot : S.text ≠ ['/'] := text_ne_singleton S
    obtain ⟨hlead, hothers, htrail⟩ := (S.not_replicate_infix_text (k := 2) Nat.two_pos).mp hfirst
    refine iff_of_true ?_ (fun h => absurd h hnot)
    obtain ⟨m, rfl⟩ | ⟨T, rfl⟩ := blank_or_spaced '/' secondPart
    · have hsingle : ¬ ['/', '/'] <:+: (S.withEnds S.lead 0).text :=
        (Spaced.not_replicate_infix_text _ (k := 2) Nat.two_pos).mpr ⟨hlead, hothers, Nat.two_pos⟩
      rw [assembled_iff leadingSlash trailingSlash (pathConcat_blank_right S m) hsingle, S.head?_text]
      exact .inr Iff.rfl
    · obtain ⟨-, hothers', htrail'⟩ := (T.not_replicate_infix_text (k := 2) Nat.two_pos).mp hsecond
      have hsingle : ¬ ['/', '/'] <:+: (S.join T).text := by
        apply (Spaced.not_replicate_infix_text _ (k := 2) Nat.two_pos).mpr
        refine ⟨hlead, ?_, htrail'⟩
        exact List.forall_mem_append.mpr ⟨hothers, List.forall_mem_cons.mpr ⟨Nat.one_lt_two, hothers'⟩⟩
      rw [assembled_iff leadingSlash trailingSlash (pathConcat_text S T) hsingle, S.head?_text]
      exact .inr Iff.rfl

/-- An absolute first part stays absolute. -/
theorem assemblePath_iff_absolute :
    Assembled "/tmp/".toList "/x".toList false true
        (assemblePath "/tmp/".toList "/x".toList false true) ↔
      ("/tmp/".toList = ['/'] → false = true) :=
  assemblePath_iff (by decide) (by decide) (.inl ⟨'t', by decide, by decide⟩) false true

/-- The root is lost. -/
theorem assemblePath_root :
    ¬ ∀ firstPart secondPart : Text, ¬ ['/', '/'] <:+: firstPart → ¬ ['/', '/'] <:+: secondPart →
      ((∃ c ∈ firstPart, c ≠ '/') ∨ ∃ c ∈ secondPart, c ≠ '/') → ∀ leadingSlash trailingSlash,
        Assembled firstPart secondPart leadingSlash trailingSlash
          (assemblePath firstPart secondPart leadingSlash trailingSlash) := by
  intro hall
  have hassembled := hall ['/'] ['a'] (by decide) (by decide) (.inr ⟨'a', by decide, by decide⟩) false false
  exact absurd (hassembled.begins.mpr (.inr rfl)) (by decide)

end Skunk.BesUtils.Paths
