import Mathlib.Data.List.DropRight
import Mathlib.Data.List.Infix
import Mathlib.Data.List.TakeWhile

/-!
# Words and the separators between them

One element of the alphabet separates words. `words` are the words of a list: the maximal runs of other
elements. A list is determined by its words and by how many separators stand in front of them, between
them and behind them; `Spaced` is a list given this way, and a list that has a word has such a form
(`exists_spaced`). What a function does to the separators of a list is then arithmetic.
-/

namespace Skunk.Text

variable {α : Type} {sep : α}

structure IsWord (sep : α) (w : List α) : Prop where
  ne_nil : w ≠ []
  free : sep ∉ w

/-! ## Words -/

section Words

variable [DecidableEq α]

/-- The words of a list: what stands between separators, without what is empty. -/
def words (sep : α) (s : List α) : List (List α) := (s.splitOn sep).filter (· ≠ [])

@[simp] theorem words_nil : words sep [] = [] := rfl

/-- Everything about `words` follows from this and from what the words of a word are. -/
theorem words_append_sep (a b : List α) : words sep (a ++ sep :: b) = words sep a ++ words sep b := by
  unfold words
  rw [List.splitOn_append_cons_of_beq _ _ (beq_self_eq_true sep), List.filter_append]

@[simp] theorem words_sep_cons (s : List α) : words sep (sep :: s) = words sep s :=
  words_append_sep [] s

theorem words_append_singleton (s : List α) : words sep (s ++ [sep]) = words sep s := by
  rw [words_append_sep, words_nil, List.append_nil]

theorem words_of_word {w : List α} (h : IsWord sep w) : words sep w = [w] := by
  unfold words
  rw [List.splitOn_eq_singleton h.free]
  simp [h.ne_nil]

theorem words_of_notMem {w : List α} (h : sep ∉ w) : words sep w = if w = [] then [] else [w] := by
  split
  next hnil => rw [hnil, words_nil]
  next hne => exact words_of_word ⟨hne, h⟩

@[simp] theorem words_replicate_append (n : Nat) (s : List α) :
    words sep (List.replicate n sep ++ s) = words sep s := by
  induction n with
  | zero => rfl
  | succ n ih => rw [List.replicate_succ, List.cons_append, words_sep_cons, ih]

@[simp] theorem words_append_replicate (s : List α) (n : Nat) :
    words sep (s ++ List.replicate n sep) = words sep s := by
  induction n with
  | zero => rw [List.replicate_zero, List.append_nil]
  | succ n ih => rw [List.replicate_succ', ← List.append_assoc, words_append_singleton, ih]

@[simp] theorem words_replicate (n : Nat) : words sep (List.replicate n sep) = [] := by
  have h : words sep (List.replicate n sep ++ []) = _ := words_replicate_append n []
  rwa [List.append_nil, words_nil] at h

end Words

/-! ## Spaced lists -/

/-- A list that has a word, by its words and the numbers of separators. -/
structure Spaced (sep : α) where
  lead : Nat
  first : List α
  others : List (Nat × List α)
  trail : Nat
  first_word : IsWord sep first
  others_word : ∀ o ∈ others, 0 < o.1 ∧ IsWord sep o.2

namespace Spaced

/-- Separators and a word behind each. -/
def gaps (sep : α) (others : List (Nat × List α)) : List α :=
  others.flatMap fun o => List.replicate o.1 sep ++ o.2

@[simp] theorem gaps_nil : gaps sep [] = [] := rfl

@[simp] theorem gaps_cons (o : Nat × List α) (os : List (Nat × List α)) :
    gaps sep (o :: os) = List.replicate o.1 sep ++ (o.2 ++ gaps sep os) := by
  rw [gaps, List.flatMap_cons, List.append_assoc]
  rfl

@[simp] theorem gaps_append (os ps : List (Nat × List α)) :
    gaps sep (os ++ ps) = gaps sep os ++ gaps sep ps := List.flatMap_append

/-- From the first word to the last. -/
def body (S : Spaced sep) : List α := S.first ++ gaps sep S.others

/-- The list itself. -/
def text (S : Spaced sep) : List α :=
  List.replicate S.lead sep ++ (S.body ++ List.replicate S.trail sep)

def parts (S : Spaced sep) : List (List α) := S.first :: S.others.map Prod.snd

variable (S : Spaced sep)

theorem body_ne_nil : S.body ≠ [] := by
  intro h
  exact S.first_word.ne_nil (List.append_eq_nil_iff.mp h).1

theorem head?_word {w : List α} (hw : IsWord sep w) (s : List α) : (w ++ s).head? ≠ some sep := by
  obtain ⟨c, w', rfl⟩ := List.exists_cons_of_ne_nil hw.ne_nil
  intro h
  apply hw.free
  rw [List.cons_append, List.head?_cons, Option.some.injEq] at h
  rw [h]
  exact List.mem_cons_self

theorem getLast?_word {w : List α} (hw : IsWord sep w) (s : List α) :
    (s ++ w).getLast? ≠ some sep := by
  intro h
  apply hw.free
  rw [List.getLast?_append_of_ne_nil _ hw.ne_nil] at h
  exact List.mem_of_getLast? h

theorem head?_body (s : List α) : (S.body ++ s).head? ≠ some sep := by
  rw [body, List.append_assoc]
  exact head?_word S.first_word _

theorem getLast?_body (s : List α) : (s ++ S.body).getLast? ≠ some sep := by
  rw [body]
  obtain hnil | ⟨front, ⟨n, w⟩, hlast⟩ := List.eq_nil_or_concat' S.others
  · rw [hnil, gaps_nil, List.append_nil]
    exact getLast?_word S.first_word s
  · have hw := (S.others_word (n, w) (by rw [hlast]; simp)).2
    rw [hlast, gaps_append, gaps_cons, gaps_nil, List.append_nil, ← List.append_assoc,
      ← List.append_assoc, ← List.append_assoc]
    exact getLast?_word hw _

theorem text_ne_nil : S.text ≠ [] := by
  intro h
  exact S.body_ne_nil (List.append_eq_nil_iff.mp (List.append_eq_nil_iff.mp h).2).1

end Spaced

/-! ## Runs of separators -/

section Runs

variable {k n : Nat} {s : List α}

/-- How far separators reach from the front. -/
theorem replicate_prefix_iff (hs : s.head? ≠ some sep) :
    List.replicate k sep <+: List.replicate n sep ++ s ↔ k ≤ n := by
  induction n generalizing k with
  | zero =>
      cases k with
      | zero => simp
      | succ k =>
          cases s with
          | nil => simp
          | cons c s =>
              -- the run ends here
              have hc : sep ≠ c := by
                intro h
                exact hs (by rw [h]; rfl)
              simp [List.replicate_succ, List.cons_prefix_cons, hc]
  | succ n ih =>
      cases k with
      | zero => simp
      | succ k => simp [List.replicate_succ, List.cons_prefix_cons, ih]

/-- How far they reach from the end. -/
theorem replicate_suffix_iff (hs : s.getLast? ≠ some sep) :
    List.replicate k sep <:+ s ++ List.replicate n sep ↔ k ≤ n := by
  have hrev : s.reverse.head? ≠ some sep := by rwa [List.head?_reverse]
  rw [← replicate_prefix_iff (k := k) (n := n) hrev, ← List.reverse_prefix, List.reverse_append,
    List.reverse_replicate, List.reverse_replicate]

theorem dropWhile_replicate [DecidableEq α] (hs : s.head? ≠ some sep) :
    (List.replicate n sep ++ s).dropWhile (· = sep) = s := by
  rw [List.dropWhile_append_of_pos (by simp)]
  cases s with
  | nil => rfl
  | cons c s =>
      apply List.dropWhile_cons_of_neg
      simpa using hs

theorem rdropWhile_replicate [DecidableEq α] (hs : s.getLast? ≠ some sep) :
    (s ++ List.replicate n sep).rdropWhile (· = sep) = s := by
  have hrev : s.reverse.head? ≠ some sep := by rwa [List.head?_reverse]
  rw [List.rdropWhile, List.reverse_append, List.reverse_replicate, dropWhile_replicate hrev,
    List.reverse_reverse]

theorem replicate_infix_append (hk : 0 < k) (hs : s.head? ≠ some sep) :
    List.replicate k sep <:+: List.replicate n sep ++ s ↔ k ≤ n ∨ List.replicate k sep <:+: s := by
  induction n with
  | zero =>
      rw [List.replicate_zero, List.nil_append]
      exact (or_iff_right (by omega)).symm
  | succ n ih =>
      have hprefix := replicate_prefix_iff (k := k) (n := n + 1) hs
      rw [List.replicate_succ, List.cons_append] at hprefix ⊢
      -- either they begin here, or it is a matter of the rest
      rw [List.infix_cons_iff, hprefix, ih, ← or_assoc]
      apply or_congr_left
      omega

theorem replicate_infix_word {w : List α} (hk : 0 < k) (hw : sep ∉ w) :
    List.replicate k sep <:+: w ++ s ↔ List.replicate k sep <:+: s := by
  induction w with
  | nil => rfl
  | cons c w ih =>
      rw [List.mem_cons, not_or] at hw
      obtain ⟨m, rfl⟩ := Nat.exists_eq_succ_of_ne_zero hk.ne'
      rw [List.cons_append, List.infix_cons_iff, ih hw.2, List.replicate_succ, List.cons_prefix_cons]
      exact or_iff_right fun h => hw.1 h.1

end Runs

namespace Spaced

variable (S : Spaced sep)

/-- A row of separators occurs exactly if some gap is as long. -/
theorem replicate_infix_gaps {k n : Nat} (hk : 0 < k) {others : List (Nat × List α)}
    (h : ∀ o ∈ others, 0 < o.1 ∧ IsWord sep o.2) :
    List.replicate k sep <:+: gaps sep others ++ List.replicate n sep ↔
      (∃ o ∈ others, k ≤ o.1) ∨ k ≤ n := by
  induction others with
  | nil =>
      have hruns : List.replicate k sep <:+: List.replicate n sep ++ [] ↔ _ :=
        replicate_infix_append hk (by simp)
      rw [List.append_nil] at hruns
      rw [gaps_nil, List.nil_append, hruns]
      simp [hk.ne']
  | cons o os ih =>
      obtain ⟨⟨-, ho⟩, hos⟩ := List.forall_mem_cons.mp h
      rw [gaps_cons, List.append_assoc, List.append_assoc,
        replicate_infix_append hk (head?_word ho _), replicate_infix_word hk ho.free, ih hos]
      simp [or_assoc]

/-- Where so many separators stand next to each other. -/
theorem replicate_infix_text {k : Nat} (hk : 0 < k) :
    List.replicate k sep <:+: S.text ↔ k ≤ S.lead ∨ (∃ o ∈ S.others, k ≤ o.1) ∨ k ≤ S.trail := by
  rw [text, replicate_infix_append hk (S.head?_body _), body, List.append_assoc,
    replicate_infix_word hk S.first_word.free, replicate_infix_gaps hk S.others_word]

/-- All the runs of separators are short. -/
theorem not_replicate_infix_text {k : Nat} (hk : 0 < k) :
    ¬ List.replicate k sep <:+: S.text ↔ S.lead < k ∧ (∀ o ∈ S.others, o.1 < k) ∧ S.trail < k := by
  rw [S.replicate_infix_text hk]
  simp only [not_or, not_le, not_exists, not_and]

theorem replicate_prefix_text {k : Nat} : List.replicate k sep <+: S.text ↔ k ≤ S.lead :=
  replicate_prefix_iff (S.head?_body _)

theorem replicate_suffix_text {k : Nat} : List.replicate k sep <:+ S.text ↔ k ≤ S.trail := by
  rw [text, ← List.append_assoc]
  exact replicate_suffix_iff (S.getLast?_body _)

theorem head?_text : S.text.head? = some sep ↔ 0 < S.lead := by
  have h := S.replicate_prefix_text (k := 1)
  rw [List.replicate_one, List.singleton_prefix_iff_head?_eq_some] at h
  exact h

theorem getLast?_text : S.text.getLast? = some sep ↔ 0 < S.trail := by
  have h := S.replicate_suffix_text (k := 1)
  rw [List.replicate_one, List.singleton_suffix_iff_getLast?_eq_some] at h
  exact h

end Spaced

/-! ## Every list with a word is spaced -/

section Words

variable [DecidableEq α]

namespace Spaced

theorem words_append_gaps {w : List α} {others : List (Nat × List α)} (hw : IsWord sep w)
    (h : ∀ o ∈ others, 0 < o.1 ∧ IsWord sep o.2) :
    words sep (w ++ gaps sep others) = w :: others.map Prod.snd := by
  induction others generalizing w with
  | nil =>
      rw [gaps_nil, List.append_nil, words_of_word hw]
      rfl
  | cons o os ih =>
      obtain ⟨⟨hpos, ho⟩, hos⟩ := List.forall_mem_cons.mp h
      -- one of the separators divides the words, the others do not matter
      obtain ⟨m, hm⟩ := Nat.exists_eq_succ_of_ne_zero hpos.ne'
      rw [gaps_cons, hm, List.replicate_succ, List.cons_append, words_append_sep, words_of_word hw,
        words_replicate_append, ih ho hos]
      rfl

theorem words_text (S : Spaced sep) : words sep S.text = S.parts := by
  rw [text, words_replicate_append, words_append_replicate]
  exact words_append_gaps S.first_word S.others_word

theorem words_text_ne_nil (S : Spaced sep) : words sep S.text ≠ [] := by
  rw [words_text]
  exact List.cons_ne_nil _ _

end Spaced

/-- A list is nothing but separators, or it has a word. -/
theorem blank_or_spaced (sep : α) (s : List α) :
    (∃ n, s = List.replicate n sep) ∨ ∃ S : Spaced sep, S.text = s := by
  induction s with
  | nil => exact .inl ⟨0, rfl⟩
  | cons c s ih =>
      by_cases hc : c = sep
      · -- one more in front
        subst hc
        obtain ⟨n, rfl⟩ | ⟨S, rfl⟩ := ih
        · exact .inl ⟨n + 1, List.replicate_succ.symm⟩
        · refine .inr ⟨{ S with lead := S.lead + 1 }, ?_⟩
          simp [Spaced.text, Spaced.body, List.replicate_succ]
      · have hword : IsWord sep [c] := ⟨by simp, by simpa using Ne.symm hc⟩
        obtain ⟨n, rfl⟩ | ⟨S, rfl⟩ := ih
        · exact .inr ⟨⟨0, [c], [], n, hword, by simp⟩, by simp [Spaced.text, Spaced.body]⟩
        · right
          obtain ⟨lead, first, others, trail, hfirst, hothers⟩ := S
          cases lead with
          | zero =>
              -- the word goes on
              have hlonger : IsWord sep (c :: first) :=
                ⟨by simp, by simpa using ⟨Ne.symm hc, hfirst.free⟩⟩
              refine ⟨⟨0, c :: first, others, trail, hlonger, hothers⟩, ?_⟩
              simp [Spaced.text, Spaced.body]
          | succ n =>
              -- it is a word of its own, and what was first comes behind it
              refine ⟨⟨0, [c], (n + 1, first) :: others, trail, hword, ?_⟩, ?_⟩
              · exact List.forall_mem_cons.mpr ⟨⟨n.succ_pos, hfirst⟩, hothers⟩
              · simp [Spaced.text, Spaced.body]

theorem exists_spaced {s : List α} (h : words sep s ≠ []) : ∃ S : Spaced sep, S.text = s := by
  obtain ⟨n, rfl⟩ | hS := blank_or_spaced sep s
  · exact absurd (words_replicate n) h
  · exact hS

theorem words_eq_nil_iff {s : List α} : words sep s = [] ↔ ∀ c ∈ s, c = sep := by
  obtain ⟨n, rfl⟩ | ⟨S, rfl⟩ := blank_or_spaced sep s
  · simp
  · refine iff_of_false S.words_text_ne_nil ?_
    intro h
    obtain ⟨c, w, hw⟩ := List.exists_cons_of_ne_nil S.first_word.ne_nil
    have hc : c ∈ S.first := by rw [hw]; exact List.mem_cons_self
    have hsep : c = sep := h c (by simp [Spaced.text, Spaced.body, hc])
    exact S.first_word.free (hsep ▸ hc)

end Words

/-! ## Changing the separators -/

namespace Spaced

/-- The same words with separators of other numbers at the ends. -/
def withEnds (S : Spaced sep) (lead trail : Nat) : Spaced sep := { S with lead := lead, trail := trail }

/-- Two lists one after the other, with one separator between them. -/
def join (S T : Spaced sep) : Spaced sep where
  lead := S.lead
  first := S.first
  others := S.others ++ (1, T.first) :: T.others
  trail := T.trail
  first_word := S.first_word
  others_word := fun o ho => (List.mem_append.mp ho).elim (S.others_word o) fun h =>
    (List.mem_cons.mp h).elim (fun heq => heq ▸ ⟨Nat.one_pos, T.first_word⟩) (T.others_word o)

theorem text_withEnds (S : Spaced sep) (lead trail : Nat) : (S.withEnds lead trail).text =
    List.replicate lead sep ++ (S.body ++ List.replicate trail sep) := rfl

@[simp] theorem parts_withEnds (S : Spaced sep) (lead trail : Nat) :
    (S.withEnds lead trail).parts = S.parts := rfl

theorem parts_join (S T : Spaced sep) : (S.join T).parts = S.parts ++ T.parts := by
  simp [parts, join]

theorem join_assoc (S T U : Spaced sep) : (S.join T).join U = S.join (T.join U) := by
  simp [join]

theorem text_join (S T : Spaced sep) :
    (S.join T).text = (S.withEnds S.lead 0).text ++ sep :: (T.withEnds 0 T.trail).text := by
  simp [text, body, join, withEnds]

/-- The words with one separator in front of each. -/
def single (S : Spaced sep) : Spaced sep where
  lead := 1
  first := S.first
  others := S.others.map fun o => (1, o.2)
  trail := 0
  first_word := S.first_word
  others_word := List.forall_mem_map.mpr fun o ho => ⟨Nat.one_pos, (S.others_word o ho).2⟩

theorem text_single (S : Spaced sep) : S.single.text = sep :: [sep].intercalate S.parts := by
  have hgaps : ∀ (w : List α) (others : List (Nat × List α)),
      w ++ gaps sep (others.map fun o => (1, o.2)) = [sep].intercalate (w :: others.map Prod.snd) := by
    intro w others
    induction others generalizing w with
    | nil => simp
    | cons o os ih =>
        rw [List.map_cons, gaps_cons, ih, List.map_cons, List.intercalate_cons_cons,
          List.append_assoc w]
        rfl
  rw [text, body, parts, ← hgaps]
  simp [single]

/-- That is how a list looks if no two separators stand next to each other, and one in front. -/
theorem text_eq_single_iff (S : Spaced sep) :
    S.text = S.single.text ↔ S.lead = 1 ∧ (∀ o ∈ S.others, o.1 = 1) ∧ S.trail = 0 := by
  constructor
  · intro h
    have hshort : ¬ List.replicate 2 sep <:+: S.single.text := by
      apply (S.single.not_replicate_infix_text Nat.two_pos).mpr
      exact ⟨Nat.one_lt_two, List.forall_mem_map.mpr fun _ _ => Nat.one_lt_two, Nat.two_pos⟩
    have hlead := S.single.head?_text.mpr Nat.one_pos
    have htrail := S.single.getLast?_text.not.mpr (Nat.lt_irrefl 0)
    rw [← h] at hshort hlead htrail
    rw [S.head?_text] at hlead
    rw [S.getLast?_text] at htrail
    obtain ⟨hlead', hothers, -⟩ := (S.not_replicate_infix_text Nat.two_pos).mp hshort
    refine ⟨by omega, ?_, by omega⟩
    intro o ho
    have := hothers o ho
    have := (S.others_word o ho).1
    omega
  · rintro ⟨hlead, hothers, htrail⟩
    have hmap : S.others.map (fun o => (1, o.2)) = S.others := by
      have hsame : ∀ o ∈ S.others, (1, o.2) = id o := fun o ho => Prod.ext (hothers o ho).symm rfl
      rw [List.map_congr_left hsame, List.map_id]
    rw [text, text, body, body, single, hlead, htrail]
    dsimp only
    rw [hmap]

/-- The list from the first word to the last. -/
def inner [DecidableEq α] (sep : α) (s : List α) : List α :=
  (s.dropWhile (· = sep)).rdropWhile (· = sep)

variable [DecidableEq α] (S : Spaced sep)

theorem dropWhile_text : S.text.dropWhile (· = sep) = (S.withEnds 0 S.trail).text :=
  dropWhile_replicate (S.head?_body _)

theorem rdropWhile_text : S.text.rdropWhile (· = sep) = (S.withEnds S.lead 0).text := by
  rw [text, ← List.append_assoc, rdropWhile_replicate (S.getLast?_body _), text_withEnds,
    List.replicate_zero, List.append_nil]

theorem inner_text : inner sep S.text = (S.withEnds 0 0).text := by
  rw [inner, dropWhile_text, rdropWhile_text]
  rfl

end Spaced

/-! ## One separator for two

A pass over the list that puts one separator in place of two, and goes on behind it, leaves half of each
run. -/

namespace Spaced

/-- The same words with half the separators. -/
def halve (S : Spaced sep) : Spaced sep where
  lead := (S.lead + 1) / 2
  first := S.first
  others := S.others.map fun o => ((o.1 + 1) / 2, o.2)
  trail := (S.trail + 1) / 2
  first_word := S.first_word
  others_word := List.forall_mem_map.mpr fun o ho =>
    ⟨Nat.div_pos (Nat.succ_le_succ (S.others_word o ho).1) Nat.two_pos, (S.others_word o ho).2⟩

@[simp] theorem parts_halve (S : Spaced sep) : S.halve.parts = S.parts := by
  simp [parts, halve, Function.comp_def]

/-- Where no two separators stand next to each other, nothing is left to do. -/
theorem halve_eq_self {S : Spaced sep} (h : ¬ [sep, sep] <:+: S.text) : S.halve = S := by
  obtain ⟨hlead, hothers, htrail⟩ := (S.not_replicate_infix_text (k := 2) Nat.two_pos).mp h
  have hmap : S.others.map (fun o => ((o.1 + 1) / 2, o.2)) = S.others := by
    have hsame : ∀ o ∈ S.others, ((o.1 + 1) / 2, o.2) = id o := by
      intro o ho
      have hlt := hothers o ho
      have hpos := (S.others_word o ho).1
      exact Prod.ext (by show (o.1 + 1) / 2 = o.1; omega) rfl
    rw [List.map_congr_left hsame, List.map_id]
  have hlead' : (S.lead + 1) / 2 = S.lead := by omega
  have htrail' : (S.trail + 1) / 2 = S.trail := by omega
  obtain ⟨lead, first, others, trail, hfirst, hword⟩ := S
  simp only [halve, mk.injEq, true_and]
  exact ⟨hlead', hmap, htrail'⟩

end Spaced

section Halving

variable [DecidableEq α]

def halveRuns (sep : α) : List α → List α
  | [] => []
  | [c] => [c]
  | c :: d :: s => if c = sep ∧ d = sep then sep :: halveRuns sep s else c :: halveRuns sep (d :: s)

theorem halveRuns_cons_of_ne {c : α} (hc : c ≠ sep) (s : List α) :
    halveRuns sep (c :: s) = c :: halveRuns sep s := by
  cases s with
  | nil => rfl
  | cons d s => exact if_neg fun h => hc h.1

theorem halveRuns_word_append {w : List α} (hw : sep ∉ w) (s : List α) :
    halveRuns sep (w ++ s) = w ++ halveRuns sep s := by
  induction w with
  | nil => rfl
  | cons c w ih =>
      rw [List.mem_cons, not_or] at hw
      rw [List.cons_append, halveRuns_cons_of_ne (Ne.symm hw.1), ih hw.2, List.cons_append]

theorem halveRuns_replicate_append {s : List α} (hs : s.head? ≠ some sep) (n : Nat) :
    halveRuns sep (List.replicate n sep ++ s) =
      List.replicate ((n + 1) / 2) sep ++ halveRuns sep s := by
  induction n using Nat.twoStepInduction with
  | zero => rfl
  | one =>
      cases s with
      | nil => rfl
      | cons c s => exact if_neg fun h => hs (congrArg some h.2)
  | more n ih _ =>
      have hhalf : (n + 2 + 1) / 2 = (n + 1) / 2 + 1 := by omega
      rw [hhalf, List.replicate_succ, List.replicate_succ, List.replicate_succ]
      show (if _ then _ else _) = _
      rw [if_pos ⟨rfl, rfl⟩]
      exact congrArg (sep :: ·) ih

theorem halveRuns_replicate (n : Nat) :
    halveRuns sep (List.replicate n sep) = List.replicate ((n + 1) / 2) sep := by
  have h : halveRuns sep (List.replicate n sep ++ []) = _ := halveRuns_replicate_append (by simp) n
  rwa [List.append_nil, halveRuns, List.append_nil] at h

namespace Spaced

/-- Every gap is halved, rounded up. -/
theorem halveRuns_gaps {others : List (Nat × List α)} (n : Nat)
    (h : ∀ o ∈ others, 0 < o.1 ∧ IsWord sep o.2) :
    halveRuns sep (gaps sep others ++ List.replicate n sep) =
      gaps sep (others.map fun o => ((o.1 + 1) / 2, o.2)) ++ List.replicate ((n + 1) / 2) sep := by
  induction others with
  | nil => exact halveRuns_replicate n
  | cons o os ih =>
      obtain ⟨⟨-, ho⟩, hos⟩ := List.forall_mem_cons.mp h
      rw [gaps_cons, List.append_assoc, List.append_assoc, halveRuns_replicate_append (head?_word ho _),
        halveRuns_word_append ho.free, ih hos, List.map_cons, gaps_cons, List.append_assoc,
        List.append_assoc]

theorem halveRuns_text (S : Spaced sep) : halveRuns sep S.text = S.halve.text := by
  rw [text, halveRuns_replicate_append (S.head?_body _), body, List.append_assoc,
    halveRuns_word_append S.first_word.free, halveRuns_gaps S.trail S.others_word, text, body,
    List.append_assoc]
  rfl

end Spaced

end Halving

end Skunk.Text
