import Skunk.Posix.Path
import Skunk.Text.Search

/-!
# `BESUtil::id2xml` and `BESUtil::xml2id`

`id2xml` writes the five characters that XML has a use for as entities, and `xml2id` reads them back, one
entity after the other, each in the whole string. What one pass makes of an ampersand, and what the pass
for ampersands itself makes of one, the searches that come then find again.

`xml2id_id2xml` says it in one equation: the first two passes and the ampersands of `id2xml` cancel out,
and the last three passes are what is done to the string.
-/

namespace Skunk.BesUtils

open Skunk.Posix Skunk.Text

/-! ## Entities -/

def entity (c : Char) : Text :=
  if c = '>' then ['&', 'g', 't', ';']
  else if c = '<' then ['&', 'l', 't', ';']
  else if c = '&' then ['&', 'a', 'm', 'p', ';']
  else if c = '\x27' then ['&', 'a', 'p', 'o', 's', ';']
  else if c = '"' then ['&', 'q', 'u', 'o', 't', ';']
  else [c]

/-- The characters that have an entity: the default for those that are not allowed. -/
def notAllowed : Text := ['>', '<', '&', '\x27', '"']

theorem entity_of_notMem {c : Char} (h : c ∉ notAllowed) : entity c = [c] := by
  simp only [notAllowed, List.mem_cons, List.not_mem_nil, or_false, not_or] at h
  simp only [entity, h, if_false]

/-- An entity is an ampersand and characters that have none. -/
theorem entity_of_mem {c : Char} (h : c ∈ notAllowed) :
    ∃ name, entity c = '&' :: name ∧ ∀ x ∈ name, x ∉ notAllowed := by
  simp only [notAllowed, List.mem_cons, List.not_mem_nil, or_false] at h
  rcases h with rfl | rfl | rfl | rfl | rfl
  · exact ⟨['g', 't', ';'], rfl, by simp [notAllowed]⟩
  · exact ⟨['l', 't', ';'], rfl, by simp [notAllowed]⟩
  · exact ⟨['a', 'm', 'p', ';'], rfl, by simp [notAllowed]⟩
  · exact ⟨['a', 'p', 'o', 's', ';'], rfl, by simp [notAllowed]⟩
  · exact ⟨['q', 'u', 'o', 't', ';'], rfl, by simp [notAllowed]⟩

/-- No entity begins with another one. -/
theorem eq_of_entity_begins {x c : Char} (hx : x ∈ notAllowed) (hc : c ∈ notAllowed) {s : Text}
    (h : entity x <+: entity c ++ s) : x = c := by
  by_contra hne
  simp only [notAllowed, List.mem_cons, List.not_mem_nil, or_false] at hx hc
  rcases hx with rfl | rfl | rfl | rfl | rfl <;> rcases hc with rfl | rfl | rfl | rfl | rfl <;>
    first
      | exact absurd rfl hne
      | simp [entity] at h

def findFirstOf (chars rest : Text) : Option Nat := rest.findIdx? (· ∈ chars)

theorem flatMap_entity_of_notMem {s : Text} (h : ∀ c ∈ s, c ∉ notAllowed) : s.flatMap entity = s := by
  induction s with
  | nil => rfl
  | cons c s ih =>
      rw [List.flatMap_cons, entity_of_notMem (h c List.mem_cons_self),
        ih fun x hx => h x (List.mem_cons_of_mem _ hx)]
      rfl

/-- What stands behind the first character of an entity is written as it is. -/
theorem flatMap_entity_tail (c : Char) : ((entity c).drop 1).flatMap entity = (entity c).drop 1 := by
  apply flatMap_entity_of_notMem
  by_cases hc : c ∈ notAllowed
  · obtain ⟨name, hname, hnot⟩ := entity_of_mem hc
    rw [hname]
    exact hnot
  · rw [entity_of_notMem hc]
    simp

theorem entity_ne_nil (c : Char) : entity c ≠ [] := by
  by_cases hc : c ∈ notAllowed
  · obtain ⟨name, hname, -⟩ := entity_of_mem hc
    simp [hname]
  · simp [entity_of_notMem hc]

/-- The loop of `id2xml`, from the place it has come to. -/
def id2xmlFrom (notAllowed rest : Text) : Text :=
  match _h : findFirstOf notAllowed rest with
  | none => rest
  | some i =>
    match _hc : rest.drop i with
    | [] => rest
    | c :: behind =>
      rest.take i ++ ((entity c).take 1 ++ id2xmlFrom notAllowed ((entity c).drop 1 ++ behind))
termination_by (rest.flatMap entity).length
decreasing_by
  have hsplit := List.take_append_drop i rest
  have hpos := List.length_pos_iff.mpr (entity_ne_nil c)
  rw [_hc] at hsplit
  rw [← hsplit, List.flatMap_append, List.flatMap_append, List.flatMap_cons, flatMap_entity_tail]
  simp only [List.length_append, List.length_drop]
  omega

def id2xml (s notAllowed : Text) : Text := id2xmlFrom notAllowed s

/-- An entity that is to be replaced by its character. -/
def entityOf (c : Char) (h : 1 < (entity c).length) : Replacement Char := ⟨entity c, c, h⟩

def xml2id (s : Text) : Text :=
  let s := replaceFrom (entityOf '>' (by decide)) s
  let s := replaceFrom (entityOf '<' (by decide)) s
  let s := replaceFrom (entityOf '&' (by decide)) s
  let s := replaceFrom (entityOf '\x27' (by decide)) s
  replaceFrom (entityOf '"' (by decide)) s

/-! ## Encoding -/

/-- The text with these characters as entities. -/
def encode (chars s : Text) : Text := s.flatMap fun c => if c ∈ chars then entity c else [c]

theorem encode_cons_mem {chars : Text} {c : Char} (h : c ∈ chars) (s : Text) :
    encode chars (c :: s) = entity c ++ encode chars s := by
  rw [encode, List.flatMap_cons, if_pos h]
  rfl

theorem encode_cons_notMem {chars : Text} {c : Char} (h : c ∉ chars) (s : Text) :
    encode chars (c :: s) = c :: encode chars s := by
  rw [encode, List.flatMap_cons, if_neg h]
  rfl

@[simp] theorem encode_nil (s : Text) : encode [] s = s := by
  simp [encode]

theorem encode_notAllowed (s : Text) : encode notAllowed s = s.flatMap entity := by
  unfold encode
  congr 1
  funext c
  split
  · rfl
  next hc => exact (entity_of_notMem hc).symm

/-- The loop writes all the characters as entities. -/
theorem id2xml_eq_encode (s : Text) : id2xml s notAllowed = encode notAllowed s := by
  rw [encode_notAllowed, id2xml]
  induction hn : (s.flatMap entity).length using Nat.strong_induction_on generalizing s with
  | _ n ih =>
      rw [id2xmlFrom]
      split
      next hnone =>
        rw [findFirstOf, List.findIdx?_eq_none_iff] at hnone
        exact (flatMap_entity_of_notMem fun c hc => by simpa using hnone c hc).symm
      next i hsome =>
        obtain ⟨hi, hc, hbefore⟩ := List.findIdx?_eq_some_iff_getElem.mp hsome
        have hsplit := List.take_append_drop i s
        have hfront : (s.take i).flatMap entity = s.take i := by
          apply flatMap_entity_of_notMem
          intro c hc
          obtain ⟨j, hj, rfl⟩ := List.getElem_of_mem hc
          rw [List.getElem_take]
          rw [List.length_take] at hj
          simpa using hbefore j (by omega)
        split
        next hnil =>
          rw [List.drop_eq_nil_iff] at hnil
          omega
        next c behind hdrop =>
          have hpos := List.length_pos_iff.mpr (entity_ne_nil c)
          have hencoded : s.flatMap entity = s.take i ++ (entity c ++ behind.flatMap entity) := by
            conv_lhs => rw [← hsplit, List.flatMap_append, hfront, hdrop, List.flatMap_cons]
          have hrest : ((entity c).drop 1 ++ behind).flatMap entity =
              (entity c).drop 1 ++ behind.flatMap entity := by
            rw [List.flatMap_append, flatMap_entity_tail]
          have hlt : (((entity c).drop 1 ++ behind).flatMap entity).length < n := by
            rw [← hn, hencoded, hrest]
            simp only [List.length_append, List.length_drop]
            omega
          rw [ih _ hlt _ rfl, hrest, hencoded, ← List.append_assoc ((entity c).take 1),
            List.take_append_drop]

/-! ## One pass of the decoder -/

section
variable {x : Char} (hx : x ∈ notAllowed) {hlong : 1 < (entity x).length}

/-- An ampersand that does not begin the entity is passed over. -/
theorem replaceFrom_amp_of_not {name s : Text} (hname : entity x = '&' :: name) (h : ¬ name <+: s) :
    replaceFrom (entityOf x hlong) ('&' :: s) = '&' :: replaceFrom (entityOf x hlong) s := by
  rw [replaceFrom_cons, if_neg]
  show ¬ entity x <+: '&' :: s
  rw [hname, List.cons_prefix_cons]
  exact fun hfits => h hfits.2

include hx

theorem replaceFrom_cons_ne {c : Char} (hc : c ≠ '&') (s : Text) :
    replaceFrom (entityOf x hlong) (c :: s) = c :: replaceFrom (entityOf x hlong) s := by
  obtain ⟨name, hname, -⟩ := entity_of_mem hx
  rw [replaceFrom_cons, if_neg]
  intro hfits
  change entity x <+: c :: s at hfits
  rw [hname, List.cons_prefix_cons] at hfits
  exact hc hfits.1.symm

theorem replaceFrom_append_notMem {w : Text} (hw : '&' ∉ w) (s : Text) :
    replaceFrom (entityOf x hlong) (w ++ s) = w ++ replaceFrom (entityOf x hlong) s := by
  induction w with
  | nil => rfl
  | cons c w ih =>
      rw [List.mem_cons, not_or] at hw
      rw [List.cons_append, replaceFrom_cons_ne hx (Ne.symm hw.1), ih hw.2, List.cons_append]

/-- The entity itself is replaced. -/
theorem replaceFrom_entity (s : Text) : replaceFrom (entityOf x hlong) (entity x ++ s) =
    replaceFrom (entityOf x hlong) (x :: s) := by
  obtain ⟨name, hname, -⟩ := entity_of_mem hx
  have hfits : entity x <+: entity x ++ s := List.prefix_append _ _
  have hdrop : (entity x ++ s).drop (entity x).length = s := List.drop_left
  rw [hname, List.cons_append] at hfits hdrop ⊢
  rw [replaceFrom_cons, if_pos (by change entity x <+: _; rwa [hname])]
  show replaceFrom _ (x :: ('&' :: (name ++ s)).drop (entity x).length) = _
  rw [hname, hdrop]

/-- Another entity is left alone. -/
theorem replaceFrom_other {c : Char} (hc : c ∈ notAllowed) (hne : c ≠ x) (s : Text) :
    replaceFrom (entityOf x hlong) (entity c ++ s) =
      entity c ++ replaceFrom (entityOf x hlong) s := by
  have hnot : ¬ entity x <+: entity c ++ s := fun h => hne (eq_of_entity_begins hx hc h).symm
  obtain ⟨name, hname, hplain⟩ := entity_of_mem hc
  have hamp : '&' ∉ name := fun hmem => hplain _ hmem (by decide)
  rw [hname, List.cons_append] at hnot ⊢
  have hpattern : ¬ (entityOf x hlong).pattern <+: '&' :: (name ++ s) := hnot
  rw [replaceFrom_cons, if_neg hpattern, replaceFrom_append_notMem hx hamp, List.cons_append]

end

/-! ## The passes one after the other -/

/-- Plain text stands in front of an encoded string where it stands in front of the string. -/
theorem prefix_encode_iff {chars name : Text} (hchars : chars ⊆ notAllowed)
    (hplain : ∀ c ∈ name, c ∉ notAllowed) (s : Text) : name <+: encode chars s ↔ name <+: s := by
  induction name generalizing s with
  | nil => simp
  | cons n name ih =>
      have hn : n ∉ notAllowed := hplain n List.mem_cons_self
      cases s with
      | nil => rfl
      | cons c s =>
          by_cases hc : c ∈ chars
          · -- the entity begins with an ampersand, and `n` is neither that nor `c`
            obtain ⟨behind, hentity, -⟩ := entity_of_mem (hchars hc)
            have hamp : '&' ∈ notAllowed := by decide
            rw [encode_cons_mem hc, hentity, List.cons_append, List.cons_prefix_cons,
              List.cons_prefix_cons]
            constructor
            · rintro ⟨rfl, -⟩
              exact absurd hamp hn
            · rintro ⟨rfl, -⟩
              exact absurd (hchars hc) hn
          · rw [encode_cons_notMem hc, List.cons_prefix_cons, List.cons_prefix_cons,
              ih fun x hx => hplain x (List.mem_cons_of_mem _ hx)]

theorem encode_append_plain {chars name : Text} (hchars : chars ⊆ notAllowed)
    (hplain : ∀ c ∈ name, c ∉ notAllowed) (s : Text) :
    encode chars (name ++ s) = name ++ encode chars s := by
  induction name with
  | nil => rfl
  | cons n name ih =>
      have hn : n ∉ chars := fun hmem => hplain n List.mem_cons_self (hchars hmem)
      rw [List.cons_append, encode_cons_notMem hn, ih fun x hx => hplain x (List.mem_cons_of_mem _ hx),
        List.cons_append]

section
variable {x : Char} {chars : Text} {hlong : 1 < (entity x).length}

/-- As long as all ampersands are entities, a pass decodes its own. -/
theorem replaceFrom_protected (hx : x ∈ notAllowed) (hchars : chars ⊆ notAllowed) (hnot : x ∉ chars)
    (hamp : '&' ∈ chars) (s : Text) :
    replaceFrom (entityOf x hlong) (encode (x :: chars) s) = encode chars s := by
  have hne : x ≠ '&' := by
    rintro rfl
    exact hnot hamp
  induction s with
  | nil => exact replaceFrom_nil
  | cons c s ih =>
      by_cases hcx : c = x
      · subst hcx
        rw [encode_cons_mem List.mem_cons_self, replaceFrom_entity hx, replaceFrom_cons_ne hx hne, ih,
          encode_cons_notMem hnot]
      by_cases hc : c ∈ chars
      · rw [encode_cons_mem (List.mem_cons_of_mem _ hc), replaceFrom_other hx (hchars hc) hcx, ih,
          encode_cons_mem hc]
      · have hcamp : c ≠ '&' := by
          rintro rfl
          exact hc hamp
        have hcons : c ∉ x :: chars := by simp [hcx, hc]
        rw [encode_cons_notMem hcons, replaceFrom_cons_ne hx hcamp, ih, encode_cons_notMem hc]

/-- Once ampersands stand for themselves, it also takes what they make up with the text behind them. -/
theorem replaceFrom_open (hx : x ∈ notAllowed) (hchars : chars ⊆ notAllowed) (hnot : x ∉ chars)
    (hne : x ≠ '&') (hamp : '&' ∉ chars) (s : Text) :
    replaceFrom (entityOf x hlong) (encode (x :: chars) s) =
      encode chars (replaceFrom (entityOf x hlong) s) := by
  have hsub : x :: chars ⊆ notAllowed := List.cons_subset.mpr ⟨hx, hchars⟩
  induction hn : s.length using Nat.strong_induction_on generalizing s with
  | _ n ih =>
      cases s with
      | nil =>
          rw [replaceFrom_nil]
          exact replaceFrom_nil
      | cons c s =>
          rw [List.length_cons] at hn
          by_cases hcx : c = x
          · subst hcx
            rw [encode_cons_mem List.mem_cons_self, replaceFrom_entity hx, replaceFrom_cons_ne hx hne,
              replaceFrom_cons_ne hx hne, encode_cons_notMem hnot, ih s.length (by omega) s rfl]
          by_cases hc : c ∈ chars
          · have hcamp : c ≠ '&' := by
              rintro rfl
              exact hamp hc
            rw [encode_cons_mem (List.mem_cons_of_mem _ hc), replaceFrom_other hx (hchars hc) hcx,
              replaceFrom_cons_ne hx hcamp, encode_cons_mem hc, ih s.length (by omega) s rfl]
          have hcons : c ∉ x :: chars := by simp [hcx, hc]
          by_cases hcamp : c = '&'
          · subst hcamp
            obtain ⟨name, hname, hplain⟩ := entity_of_mem hx
            by_cases hfits : name <+: s
            · -- an ampersand of the string itself makes up the entity
              obtain ⟨behind, rfl⟩ := hfits
              have hentity : '&' :: (name ++ behind) = entity x ++ behind := by
                rw [hname, List.cons_append]
              have hencode : encode (x :: chars) ('&' :: (name ++ behind)) =
                  entity x ++ encode (x :: chars) behind := by
                rw [encode_cons_notMem hcons, encode_append_plain hsub hplain, hname, List.cons_append]
              rw [hencode, hentity, replaceFrom_entity hx, replaceFrom_entity hx,
                replaceFrom_cons_ne hx hne, replaceFrom_cons_ne hx hne, encode_cons_notMem hnot]
              rw [List.length_append] at hn
              rw [ih behind.length (by omega) behind rfl]
            · have hfits' : ¬ name <+: encode (x :: chars) s := by rwa [prefix_encode_iff hsub hplain]
              rw [encode_cons_notMem hcons, replaceFrom_amp_of_not hname hfits',
                replaceFrom_amp_of_not hname hfits, encode_cons_notMem hc, ih s.length (by omega) s rfl]
          · rw [encode_cons_notMem hcons, replaceFrom_cons_ne hx hcamp, replaceFrom_cons_ne hx hcamp,
              encode_cons_notMem hc, ih s.length (by omega) s rfl]

end

/-- The pass for ampersands searches again where it has just put one. -/
theorem replaceFrom_amp {chars : Text} {hlong : 1 < (entity '&').length} (hchars : chars ⊆ notAllowed)
    (hnot : '&' ∉ chars) (s : Text) :
    replaceFrom (entityOf '&' hlong) (encode ('&' :: chars) s) =
      encode chars (replaceFrom (entityOf '&' hlong) s) := by
  have hx : '&' ∈ notAllowed := by decide
  have hsub : '&' :: chars ⊆ notAllowed := List.cons_subset.mpr ⟨hx, hchars⟩
  obtain ⟨name, hname, hplain⟩ := entity_of_mem hx
  -- together with what comes of an ampersand in front of the encoded string
  suffices h : ∀ n (s : Text), s.length = n →
      replaceFrom (entityOf '&' hlong) (encode ('&' :: chars) s) =
          encode chars (replaceFrom (entityOf '&' hlong) s) ∧
        replaceFrom (entityOf '&' hlong) ('&' :: encode ('&' :: chars) s) =
          encode chars (replaceFrom (entityOf '&' hlong) ('&' :: s)) from (h s.length s rfl).1
  intro n
  induction n using Nat.strong_induction_on with
  | _ n ih =>
      intro s hn
      have hfirst : replaceFrom (entityOf '&' hlong) (encode ('&' :: chars) s) =
          encode chars (replaceFrom (entityOf '&' hlong) s) := by
        cases s with
        | nil =>
            rw [replaceFrom_nil]
            exact replaceFrom_nil
        | cons c s =>
            rw [List.length_cons] at hn
            obtain ⟨hplainTail, hampTail⟩ := ih s.length (by omega) s rfl
            by_cases hcamp : c = '&'
            · subst hcamp
              rw [encode_cons_mem List.mem_cons_self, replaceFrom_entity hx, hampTail]
            by_cases hc : c ∈ chars
            · rw [encode_cons_mem (List.mem_cons_of_mem _ hc), replaceFrom_other hx (hchars hc) hcamp,
                replaceFrom_cons_ne hx hcamp, encode_cons_mem hc, hplainTail]
            · have hcons : c ∉ '&' :: chars := by simp [hcamp, hc]
              rw [encode_cons_notMem hcons, replaceFrom_cons_ne hx hcamp, replaceFrom_cons_ne hx hcamp,
                encode_cons_notMem hc, hplainTail]
      refine ⟨hfirst, ?_⟩
      by_cases hfits : name <+: s
      · obtain ⟨behind, rfl⟩ := hfits
        have hentity : '&' :: (name ++ behind) = entity '&' ++ behind := by
          rw [hname, List.cons_append]
        have hencode : '&' :: encode ('&' :: chars) (name ++ behind) =
            entity '&' ++ encode ('&' :: chars) behind := by
          rw [encode_append_plain hsub hplain, hname, List.cons_append]
        have hpos : 0 < name.length := by
          rw [hname, List.length_cons] at hlong
          omega
        rw [List.length_append] at hn
        rw [hencode, hentity, replaceFrom_entity hx, replaceFrom_entity hx]
        exact (ih behind.length (by omega) behind rfl).2
      · have hfits' : ¬ name <+: encode ('&' :: chars) s := by rwa [prefix_encode_iff hsub hplain]
        rw [replaceFrom_amp_of_not hname hfits', replaceFrom_amp_of_not hname hfits, hfirst,
          encode_cons_notMem hnot]

/-- What is left of decoding an encoded string are the last three passes. -/
theorem xml2id_id2xml (s : Text) : xml2id (id2xml s notAllowed) =
    replaceFrom (entityOf '"' (by decide)) (replaceFrom (entityOf '\x27' (by decide))
      (replaceFrom (entityOf '&' (by decide)) s)) := by
  have hchar : notAllowed = '>' :: '<' :: '&' :: '\x27' :: ['"'] := rfl
  rw [id2xml_eq_encode, hchar, xml2id, replaceFrom_protected (by decide) (by decide) (by decide) (by decide),
    replaceFrom_protected (by decide) (by decide) (by decide) (by decide),
    replaceFrom_amp (by decide) (by decide),
    replaceFrom_open (by decide) (by decide) (by decide) (by decide) (by decide),
    replaceFrom_open (by decide) (by decide) (by decide) (by decide) (by decide), encode_nil]

/-- A string comes back exactly if it has none of these entities in it. -/
theorem xml2id_id2xml_iff (s : Text) : xml2id (id2xml s notAllowed) = s ↔
    ¬ entity '&' <:+: s ∧ ¬ entity '\x27' <:+: s ∧ ¬ entity '"' <:+: s := by
  rw [xml2id_id2xml]
  constructor
  · intro h
    -- no pass has made the string shorter
    have hlength := congrArg List.length h
    have hquot := replaceFrom_length_le (r := entityOf '"' (by decide))
      (replaceFrom (entityOf '\x27' (by decide)) (replaceFrom (entityOf '&' (by decide)) s))
    have hapos := replaceFrom_length_le (r := entityOf '\x27' (by decide))
      (replaceFrom (entityOf '&' (by decide)) s)
    rcases replaceFrom_eq_or_lt (r := entityOf '&' (by decide)) s with ⟨hamp, heq⟩ | ⟨-, hlt⟩
    · rw [heq] at h hlength hquot hapos
      rcases replaceFrom_eq_or_lt (r := entityOf '\x27' (by decide)) s with ⟨hapos', heq⟩ | ⟨-, hlt⟩
      · rw [heq] at h
        exact ⟨hamp, hapos', (replaceFrom_eq_self_iff s).mp h⟩
      · omega
    · omega
  · rintro ⟨hamp, hapos, hquot⟩
    rw [(replaceFrom_eq_self_iff (r := entityOf '&' (by decide)) s).mpr hamp,
      (replaceFrom_eq_self_iff (r := entityOf '\x27' (by decide)) s).mpr hapos]
    exact (replaceFrom_eq_self_iff s).mpr hquot

/-- The text of an entity is decoded twice. -/
theorem entity_text_decoded_twice :
    xml2id (id2xml ['&', 'a', 'm', 'p', ';'] notAllowed) = ['&'] ∧
      xml2id (id2xml ['&', 'a', 'm', 'p', ';'] notAllowed) ≠ ['&', 'a', 'm', 'p', ';'] := by
  have hdecoded : xml2id (id2xml ['&', 'a', 'm', 'p', ';'] notAllowed) = ['&'] := by
    rw [xml2id_id2xml]
    simp [replaceFrom_cons, entityOf, entity]
  refine ⟨hdecoded, ?_⟩
  rw [hdecoded]
  decide

/-! ## What the text is like

The text that `id2xml` returns is the entities of the characters one after the other, and it can be read
in one way only. -/

theorem id2xml_notAllowed (s : Text) : id2xml s notAllowed = s.flatMap entity := by
  rw [id2xml_eq_encode, encode_notAllowed]

/-- An entity begins with the only ampersand in it, and has no other character that is not allowed. -/
theorem mem_notAllowed_of_mem_entity {c x : Char} (h : x ∈ entity c) (hx : x ∈ notAllowed) :
    x = '&' ∧ c ∈ notAllowed := by
  by_cases hc : c ∈ notAllowed
  · obtain ⟨name, hname, hplain⟩ := entity_of_mem hc
    rw [hname, List.mem_cons] at h
    obtain rfl | hmem := h
    · exact ⟨rfl, hc⟩
    · exact absurd hx (hplain x hmem)
  · rw [entity_of_notMem hc, List.mem_singleton] at h
    rw [h] at hx
    exact absurd hx hc

theorem amp_of_mem_flatMap_entity {s : Text} {x : Char} (h : x ∈ s.flatMap entity)
    (hx : x ∈ notAllowed) : x = '&' := by
  obtain ⟨c, -, hc⟩ := List.mem_flatMap.mp h
  exact (mem_notAllowed_of_mem_entity hc hx).1

/-- Where an ampersand stands, an entity begins. -/
theorem entity_of_amp {s front behind : Text} (h : s.flatMap entity = front ++ '&' :: behind) :
    ∃ c ∈ notAllowed, entity c <+: '&' :: behind := by
  induction s generalizing front with
  | nil => simp at h
  | cons c s ih =>
      rw [List.flatMap_cons, List.append_eq_append_iff] at h
      obtain ⟨rest, -, hrest⟩ | ⟨part, hpart, hbehind⟩ := h
      · exact ih hrest
      cases part with
      | nil => exact @ih [] hbehind.symm
      | cons d part =>
          -- it is the ampersand of this entity, so nothing stands in front of it
          obtain ⟨rfl, hbehind⟩ := List.cons.inj hbehind
          have hmem : '&' ∈ entity c := by rw [hpart]; simp
          obtain ⟨-, hc⟩ := mem_notAllowed_of_mem_entity hmem (by decide)
          obtain ⟨name, hname, hplain⟩ := entity_of_mem hc
          refine ⟨c, hc, ?_⟩
          cases front with
          | nil =>
              rw [hpart, hbehind]
              exact ⟨s.flatMap entity, rfl⟩
          | cons e front =>
              rw [hname] at hpart
              obtain ⟨-, htail⟩ := List.cons.inj hpart
              exact absurd (show '&' ∈ notAllowed by decide) (hplain '&' (by rw [htail]; simp))

/-- The entity at the beginning tells the character. -/
theorem entity_append_inj {c d : Char} {s t : Text} (h : entity c ++ s = entity d ++ t) :
    c = d ∧ s = t := by
  have hcd : c = d := by
    by_cases hc : c ∈ notAllowed
    · obtain ⟨name, hname, -⟩ := entity_of_mem hc
      by_cases hd : d ∈ notAllowed
      · exact eq_of_entity_begins hc hd ⟨s, h⟩
      · rw [hname, entity_of_notMem hd] at h
        obtain ⟨rfl, -⟩ := List.cons.inj h
        exact absurd (by decide) hd
    · by_cases hd : d ∈ notAllowed
      · obtain ⟨name, hname, -⟩ := entity_of_mem hd
        rw [hname, entity_of_notMem hc] at h
        obtain ⟨rfl, -⟩ := List.cons.inj h
        exact absurd (by decide) hc
      · rw [entity_of_notMem hc, entity_of_notMem hd] at h
        exact (List.cons.inj h).1
  subst hcd
  exact ⟨rfl, List.append_cancel_left h⟩

theorem flatMap_entity_injective {s t : Text} (h : s.flatMap entity = t.flatMap entity) : s = t := by
  induction s generalizing t with
  | nil =>
      cases t with
      | nil => rfl
      | cons d t =>
          rw [List.flatMap_cons, List.flatMap_nil] at h
          exact absurd (List.append_eq_nil_iff.mp h.symm).1 (entity_ne_nil d)
  | cons c s ih =>
      cases t with
      | nil =>
          rw [List.flatMap_cons, List.flatMap_nil] at h
          exact absurd (List.append_eq_nil_iff.mp h).1 (entity_ne_nil c)
      | cons d t =>
          rw [List.flatMap_cons, List.flatMap_cons] at h
          obtain ⟨rfl, hrest⟩ := entity_append_inj h
          rw [ih hrest]

/-- What `id2xml` returns has none of the other four characters in it, an ampersand only where an entity
begins, and is a different text for a different string. -/
theorem id2xml_wellFormed (s : Text) :
    (∀ c ∈ ['<', '>', '\x27', '"'], c ∉ id2xml s notAllowed) ∧
      (∀ front behind, id2xml s notAllowed = front ++ '&' :: behind →
        ∃ c ∈ notAllowed, entity c <+: '&' :: behind) ∧
      ∀ t, id2xml s notAllowed = id2xml t notAllowed → s = t := by
  rw [id2xml_notAllowed]
  refine ⟨?_, fun front behind h => entity_of_amp h, ?_⟩
  · intro c hc hmem
    have hother : ∀ c ∈ ['<', '>', '\x27', '"'], c ∈ notAllowed ∧ c ≠ '&' := by simp [notAllowed]
    obtain ⟨hchar, hne⟩ := hother c hc
    exact hne (amp_of_mem_flatMap_entity hmem hchar)
  · intro t h
    rw [id2xml_notAllowed] at h
    exact flatMap_entity_injective h

end Skunk.BesUtils
