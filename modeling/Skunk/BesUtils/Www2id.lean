import Mathlib.Algebra.Group.Int.Defs
import Skunk.Posix.Path
import Skunk.Text.Search

/-!
# `BESUtil::www2id`

Percent-decoding in place: the loop puts the character that an escape stands for where the escape was,
and searches on from that place. So a percent sign that comes out is taken for the next escape, and as the
character goes through a C string, a NUL comes out as nothing.

`www2id_eq_decode_iff` says that these two are the only escapes it does not decode.

Characters stand for bytes.
-/

namespace Skunk.BesUtils

open Skunk.Posix Skunk.Text

/-! ## Reading a number -/

def hexValue (c : Char) : Option Nat :=
  if '0' ≤ c ∧ c ≤ '9' then some (c.toNat - 48)
  else if 'a' ≤ c ∧ c ≤ 'f' then some (c.toNat - 87)
  else if 'A' ≤ c ∧ c ≤ 'F' then some (c.toNat - 55)
  else none

def isSpace (c : Char) : Bool := c ∈ [' ', '\t', '\n', '\x0b', '\x0c', '\r']

/-- The digits that are there, read as a number. -/
def readDigits (s : Text) : Nat :=
  (s.map hexValue).takeWhile Option.isSome |>.foldl (fun n d => 16 * n + d.getD 0) 0

/-- A number with its sign and its prefix; zero if there are no digits. -/
def readNumber (s : Text) : Int :=
  let unsigned (s : Text) : Nat := match s with
    | '0' :: 'x' :: digits => readDigits digits
    | '0' :: 'X' :: digits => readDigits digits
    | _ => readDigits s
  match s with
  | '-' :: s => - (unsigned s : Int)
  | '+' :: s => unsigned s
  | _ => unsigned s

/-- The value of a variable that has not been set. -/
inductive Uninitialized
  | val
  deriving DecidableEq, Repr

/-- `unhexstring`. With nothing but white space to read, `val` stays unset. -/
def unhexstring (s : Text) : Except Uninitialized Text :=
  match s.dropWhile isSpace with
  | [] => .error .val
  | c :: cs =>
    let byte := (readNumber (c :: cs) % 256).toNat
    .ok (cStr [Char.ofNat byte])

theorem length_unhexstring_le {s x : Text} (h : unhexstring s = .ok x) : x.length ≤ 1 ∧ s ≠ [] := by
  unfold unhexstring at h
  split at h
  · cases h
  next c cs hs =>
    obtain rfl := Except.ok.inj h
    constructor
    · exact (List.takeWhile_prefix _).length_le
    · rintro rfl
      cases hs

/-! ## The loop -/

/-- The loop of `www2id`, from the place it has come to. -/
def www2idFrom (escape except rest : Text) : Except Uninitialized Text :=
  match _h : rest.findIdx? (· ∈ escape) with
  | none => .ok rest
  | some i =>
    if (findSub ((rest.drop i).take 3) except).isSome then
      match www2idFrom escape except ((rest.drop i).drop 3) with
      | .error e => .error e
      | .ok decoded => .ok (rest.take i ++ ((rest.drop i).take 3 ++ decoded))
    else
      match _hx : unhexstring (((rest.drop i).drop 1).take 2) with
      | .error e => .error e
      | .ok x =>
        match www2idFrom escape except (x ++ (rest.drop i).drop 3) with
        | .error e => .error e
        | .ok decoded => .ok (rest.take i ++ decoded)
termination_by rest.length
decreasing_by
  · obtain ⟨hi, -⟩ := List.findIdx?_eq_some_iff_getElem.mp _h
    simp only [List.length_drop]
    omega
  · obtain ⟨hi, -⟩ := List.findIdx?_eq_some_iff_getElem.mp _h
    obtain ⟨hx, hne⟩ := length_unhexstring_le _hx
    have htwo : 0 < (((rest.drop i).drop 1).take 2).length := List.length_pos_iff.mpr hne
    simp only [List.length_take, List.length_drop] at htwo
    simp only [List.length_append, List.length_drop]
    omega

def www2id (s escape except : Text) : Except Uninitialized Text := www2idFrom escape except s

/-! ## One place after the other -/

section
variable {escape except rest : Text}

theorem www2idFrom_none (h : rest.findIdx? (· ∈ escape) = none) :
    www2idFrom escape except rest = .ok rest := by
  rw [www2idFrom]
  split
  · rfl
  next hsome => rw [h] at hsome; cases hsome

/-- At an escape the two digits are read, unless it is one of the exceptions. -/
theorem www2idFrom_some {i : Nat} (h : rest.findIdx? (· ∈ escape) = some i) :
    www2idFrom escape except rest =
      if (findSub ((rest.drop i).take 3) except).isSome then
        (www2idFrom escape except ((rest.drop i).drop 3)).map
          fun decoded => rest.take i ++ ((rest.drop i).take 3 ++ decoded)
      else
        (unhexstring (((rest.drop i).drop 1).take 2)).bind fun x =>
          (www2idFrom escape except (x ++ (rest.drop i).drop 3)).map (rest.take i ++ ·) := by
  rw [www2idFrom]
  split
  next hnone => rw [h] at hnone; cases hnone
  next j hj =>
    rw [h] at hj
    cases hj
    split
    · cases www2idFrom escape except ((rest.drop i).drop 3) <;> rfl
    · split
      next hx => rw [hx]; rfl
      next x hx =>
        rw [hx]
        show _ = (www2idFrom escape except (x ++ (rest.drop i).drop 3)).map _
        cases www2idFrom escape except (x ++ (rest.drop i).drop 3) <;> rfl

@[simp] theorem www2idFrom_nil : www2idFrom escape except [] = .ok [] := www2idFrom_none rfl

/-- Other characters are kept. -/
theorem www2idFrom_cons_notMem {c : Char} (hc : c ∉ escape) (s : Text) :
    www2idFrom escape except (c :: s) = (www2idFrom escape except s).map (c :: ·) := by
  have hfind : (c :: s).findIdx? (· ∈ escape) = (s.findIdx? (· ∈ escape)).map (· + 1) := by
    rw [List.findIdx?_cons, if_neg (by simpa using hc)]
  cases hs : s.findIdx? (· ∈ escape) with
  | none =>
      rw [hs] at hfind
      rw [www2idFrom_none hfind, www2idFrom_none hs]
      rfl
  | some i =>
      rw [hs] at hfind
      rw [www2idFrom_some hfind, www2idFrom_some hs]
      simp only [List.drop_succ_cons, List.take_succ_cons, List.cons_append]
      split
      · cases www2idFrom escape except ((s.drop i).drop 3) <;> rfl
      · cases unhexstring (((s.drop i).drop 1).take 2) with
        | error e => rfl
        | ok x => 
            show (www2idFrom escape except (x ++ (s.drop i).drop 3)).map _ =
              ((www2idFrom escape except (x ++ (s.drop i).drop 3)).map _).map _
            cases www2idFrom escape except (x ++ (s.drop i).drop 3) <;> rfl

/-- What an escape stands for takes its place. -/
theorem www2idFrom_cons_mem {c : Char} (hc : c ∈ escape) (s : Text) :
    www2idFrom escape [] (c :: s) =
      (unhexstring (s.take 2)).bind fun x => www2idFrom escape [] (x ++ s.drop 2) := by
  have hfind : (c :: s).findIdx? (· ∈ escape) = some 0 := by
    rw [List.findIdx?_cons, if_pos (by simpa using hc)]
  rw [www2idFrom_some hfind, if_neg (by simp [findSub])]
  simp only [List.drop_zero, List.take_zero, List.nil_append, List.drop_succ_cons]
  congr 1
  funext x
  cases www2idFrom escape [] (x ++ s.drop 2) <;> rfl

/-- No percent sign is left over. -/
theorem notMem_of_www2idFrom {t : Text} (h : www2idFrom escape [] rest = .ok t) :
    ∀ c ∈ escape, c ∉ t := by
  induction hn : rest.length using Nat.strong_induction_on generalizing rest t with
  | _ n ih =>
      cases rest with
      | nil =>
          rw [www2idFrom_nil] at h
          obtain rfl := Except.ok.inj h
          simp
      | cons c s =>
          rw [List.length_cons] at hn
          by_cases hc : c ∈ escape
          · rw [www2idFrom_cons_mem hc] at h
            cases hx : unhexstring (s.take 2) with
            | error e => rw [hx] at h; cases h
            | ok x =>
                rw [hx] at h
                obtain ⟨hshort, hne⟩ := length_unhexstring_le hx
                have hpos := List.length_pos_iff.mpr hne
                rw [List.length_take] at hpos
                refine ih _ ?_ h rfl
                rw [List.length_append, List.length_drop]
                omega
          · rw [www2idFrom_cons_notMem hc] at h
            cases hs : www2idFrom escape [] s with
            | error e => rw [hs] at h; cases h
            | ok decoded =>
                rw [hs] at h
                obtain rfl := Except.ok.inj h
                intro d hd hmem
                rcases List.mem_cons.mp hmem with rfl | hmem
                · exact hc hd
                · exact ih s.length (by omega) hs rfl d hd hmem

end

/-! ## Decoding once -/

/-- Every percent sign has two hexadecimal digits behind it. -/
def Escaped (s : Text) : Prop := ∀ before rest, s = before ++ '%' :: rest →
  ∃ hi lo behind, rest = hi :: lo :: behind ∧ (hexValue hi).isSome ∧ (hexValue lo).isSome

/-- The byte that two digits stand for. -/
def byteOf (hi lo : Char) : Char := Char.ofNat (16 * (hexValue hi).getD 0 + (hexValue lo).getD 0)

/-- Each escape as its byte. -/
def decode : Text → Text
  | '%' :: hi :: lo :: rest => byteOf hi lo :: decode rest
  | c :: rest => c :: decode rest
  | [] => []

theorem Escaped.of_append {a s : Text} (h : Escaped (a ++ s)) : Escaped s := by
  intro before rest hs
  apply h (a ++ before) rest
  rw [hs, List.append_assoc]

theorem Escaped.of_cons {c : Char} {s : Text} (h : Escaped (c :: s)) : Escaped s :=
  Escaped.of_append (a := [c]) h

/-- Where the hexadecimal digits are. -/
theorem hexValue_eq_some {c : Char} {v : Nat} (h : hexValue c = some v) :
    (48 ≤ c.toNat ∧ c.toNat ≤ 57 ∧ v = c.toNat - 48) ∨
      (97 ≤ c.toNat ∧ c.toNat ≤ 102 ∧ v = c.toNat - 87) ∨
      (65 ≤ c.toNat ∧ c.toNat ≤ 70 ∧ v = c.toNat - 55) := by
  unfold hexValue at h
  split at h
  next hdigit =>
    left
    exact ⟨hdigit.1, hdigit.2, (Option.some.inj h).symm⟩
  split at h
  next hlower =>
    right; left
    exact ⟨hlower.1, hlower.2, (Option.some.inj h).symm⟩
  split at h
  next hupper =>
    right; right
    exact ⟨hupper.1, hupper.2, (Option.some.inj h).symm⟩
  · cases h

theorem hexValue_lt {c : Char} {v : Nat} (h : hexValue c = some v) : v < 16 := by
  rcases hexValue_eq_some h with h | h | h <;> omega

/-- The decimal digits are the ones with a small value. -/
theorem toNat_of_hexValue {c : Char} {v : Nat} (h : hexValue c = some v) (hv : v < 10) :
    c.toNat = 48 + v := by
  rcases hexValue_eq_some h with h | h | h <;> omega

theorem not_isSpace_of_hexValue {c : Char} (h : (hexValue c).isSome) : isSpace c = false := by
  rw [isSpace, decide_eq_false_iff_not]
  intro hmem
  simp only [List.mem_cons, List.not_mem_nil, or_false] at hmem
  rcases hmem with rfl | rfl | rfl | rfl | rfl | rfl <;> cases h

theorem byteOf_toNat {hi lo : Char} {a b : Nat} (ha : hexValue hi = some a) (hb : hexValue lo = some b) :
    (byteOf hi lo).toNat = 16 * a + b := by
  have := hexValue_lt ha
  have := hexValue_lt hb
  rw [byteOf, ha, hb]
  show (Char.ofNat (16 * a + b)).toNat = _
  have hvalid : (16 * a + b).isValidChar := .inl (by omega)
  rw [Char.ofNat, dif_pos hvalid]
  rfl

/-- The escape of a byte whose digits are decimal ones. -/
theorem byteOf_eq_iff {hi lo : Char} (d₁ d₂ : Char) (hhi : (hexValue hi).isSome) (hlo : (hexValue lo).isSome)
    {a b : Nat} (h₁ : hexValue d₁ = some a) (h₂ : hexValue d₂ = some b) (ha : a < 10) (hb : b < 10) :
    byteOf hi lo = byteOf d₁ d₂ ↔ hi = d₁ ∧ lo = d₂ := by
  constructor
  · intro h
    obtain ⟨a', ha'⟩ := Option.isSome_iff_exists.mp hhi
    obtain ⟨b', hb'⟩ := Option.isSome_iff_exists.mp hlo
    have hnum := congrArg Char.toNat h
    rw [byteOf_toNat ha' hb', byteOf_toNat h₁ h₂] at hnum
    have := hexValue_lt ha'
    have := hexValue_lt hb'
    obtain rfl : a' = a := by omega
    obtain rfl : b' = b := by omega
    constructor
    · apply Char.toNat_inj.mp
      rw [toNat_of_hexValue ha' ha, toNat_of_hexValue h₁ ha]
    · apply Char.toNat_inj.mp
      rw [toNat_of_hexValue hb' hb, toNat_of_hexValue h₂ hb]
  · rintro ⟨rfl, rfl⟩
    rfl

/-- Two digits are read as the number they are. -/
theorem unhexstring_digits {hi lo : Char} (hhi : (hexValue hi).isSome) (hlo : (hexValue lo).isSome) :
    unhexstring [hi, lo] = .ok (cStr [byteOf hi lo]) := by
  obtain ⟨a, ha⟩ := Option.isSome_iff_exists.mp hhi
  obtain ⟨b, hb⟩ := Option.isSome_iff_exists.mp hlo
  have := hexValue_lt ha
  have := hexValue_lt hb
  have hnumber : readNumber [hi, lo] = ((16 * a + b : Nat) : Int) := by
    have hdigits : readDigits [hi, lo] = 16 * a + b := by
      simp [readDigits, ha, hb]
    unfold readNumber
    split
    next hminus => cases hminus; cases hhi
    next hplus => cases hplus; cases hhi
    · dsimp only
      split
      next hx => cases hx; cases hlo
      next hx => cases hx; cases hlo
      · rw [hdigits]
  have hbyte : (((16 * a + b : Nat) : Int) % 256).toNat = 16 * a + b := by omega
  unfold unhexstring
  rw [List.dropWhile_cons, if_neg (by rw [not_isSpace_of_hexValue hhi]; decide)]
  simp only [hnumber, hbyte]
  rw [byteOf, ha, hb]
  rfl

theorem escaped_nil : Escaped [] := by
  rintro (_ | ⟨c, before⟩) rest hs <;> cases hs

theorem Escaped.cons {c : Char} {s : Text} (h : Escaped s) (hc : c ≠ '%') : Escaped (c :: s) := by
  rintro (_ | ⟨d, before⟩) rest hs
  · cases hs
    exact absurd rfl hc
  · cases hs
    exact h before rest rfl

theorem Escaped.cons_escape {hi lo : Char} {s : Text} (h : Escaped s) (hhi : (hexValue hi).isSome)
    (hlo : (hexValue lo).isSome) : Escaped ('%' :: hi :: lo :: s) := by
  have hdigits : Escaped (hi :: lo :: s) :=
    (h.cons (by rintro rfl; cases hlo)).cons (by rintro rfl; cases hhi)
  rintro (_ | ⟨d, before⟩) rest hs
  · cases hs
    exact ⟨hi, lo, s, rfl, hhi, hlo⟩
  · exact hdigits before rest (List.cons.inj hs).2

/-- An escape in a text that begins with another character. -/
theorem escape_infix_cons_iff {c d₁ d₂ : Char} (hc : c ≠ '%') (s : Text) :
    ['%', d₁, d₂] <:+: c :: s ↔ ['%', d₁, d₂] <:+: s := by
  rw [List.infix_cons_iff, List.cons_prefix_cons]
  constructor
  · rintro (⟨rfl, -⟩ | h)
    · exact absurd rfl hc
    · exact h
  · exact .inr

theorem ne_of_hexValue {c : Char} (h : (hexValue c).isSome) : c ≠ '%' := by
  rintro rfl
  cases h

/-- An escape in a text that begins with one. -/
theorem escape_infix_escape_iff {hi lo d₁ d₂ : Char} (hhi : (hexValue hi).isSome)
    (hlo : (hexValue lo).isSome) (s : Text) :
    ['%', d₁, d₂] <:+: '%' :: hi :: lo :: s ↔ hi = d₁ ∧ lo = d₂ ∨ ['%', d₁, d₂] <:+: s := by
  rw [List.infix_cons_iff, escape_infix_cons_iff (ne_of_hexValue hhi),
    escape_infix_cons_iff (ne_of_hexValue hlo)]
  simp [List.cons_prefix_cons, eq_comm]

/-- An escaped text begins with another character or with an escape. -/
theorem Escaped.escape {rest : Text} (h : Escaped ('%' :: rest)) :
    ∃ hi lo behind, rest = hi :: lo :: behind ∧ (hexValue hi).isSome ∧ (hexValue lo).isSome :=
  h [] rest rfl

/-- What does not begin an escape is no percent sign. -/
theorem Escaped.ne_percent {c : Char} {rest : Text} (h : Escaped (c :: rest))
    (hnot : ∀ hi lo behind, c = '%' → rest = hi :: lo :: behind → False) : c ≠ '%' := by
  rintro rfl
  obtain ⟨hi, lo, behind, heq, -⟩ := h.escape
  exact hnot hi lo behind rfl heq

theorem percent_mem_decode {s : Text} (h : Escaped s) (hpercent : ['%', '2', '5'] <:+: s) :
    '%' ∈ decode s := by
  fun_induction decode s with
  | case1 hi lo rest ih =>
      obtain ⟨hi', lo', behind, heq, hhi, hlo⟩ := h.escape
      cases heq
      rcases (escape_infix_escape_iff hhi hlo rest).mp hpercent with ⟨rfl, rfl⟩ | hrest
      · exact List.mem_cons_self
      · exact List.mem_cons_of_mem _ (ih h.of_cons.of_cons.of_cons hrest)
  | case2 c rest hnot ih =>
      have hc := h.ne_percent hnot
      exact List.mem_cons_of_mem _ (ih h.of_cons ((escape_infix_cons_iff hc rest).mp hpercent))
  | case3 => cases List.infix_nil.mp hpercent

/-- Without the escape for a percent sign, all that can be lost is a NUL. -/
theorem www2idFrom_eq_or_lt {s : Text} (h : Escaped s) (hpercent : ¬ ['%', '2', '5'] <:+: s) :
    ∃ t, www2idFrom ['%'] [] s = .ok t ∧
      (¬ ['%', '0', '0'] <:+: s ∧ t = decode s ∨
        ['%', '0', '0'] <:+: s ∧ t.length < (decode s).length) := by
  fun_induction decode s with
  | case1 hi lo rest ih =>
      obtain ⟨hi', lo', behind, heq, hhi, hlo⟩ := h.escape
      cases heq
      rw [escape_infix_escape_iff hhi hlo, not_or] at hpercent
      obtain ⟨hnot, hpercent⟩ := hpercent
      obtain ⟨t, ht, hcases⟩ := ih h.of_cons.of_cons.of_cons hpercent
      -- the byte is no percent sign, so no new escape begins with it
      have hbyte : byteOf hi lo ∉ ['%'] := by
        rw [List.mem_singleton]
        intro heq
        exact hnot ((byteOf_eq_iff '2' '5' hhi hlo rfl rfl (by decide)
          (by decide)).mp heq)
      have hloop : www2idFrom ['%'] [] ('%' :: hi :: lo :: rest) =
          www2idFrom ['%'] [] (cStr [byteOf hi lo] ++ rest) := by
        rw [www2idFrom_cons_mem List.mem_cons_self]
        simp only [List.take_succ_cons, List.take_zero, List.drop_succ_cons, List.drop_zero,
          unhexstring_digits hhi hlo, Except.bind]
      rw [hloop, escape_infix_escape_iff hhi hlo]
      by_cases hnul : hi = '0' ∧ lo = '0'
      · -- a NUL ends the C string that is put in, and is lost
        refine ⟨t, ?_, .inr ⟨.inl hnul, ?_⟩⟩
        · obtain ⟨rfl, rfl⟩ := hnul
          exact ht
        · rw [List.length_cons]
          rcases hcases with ⟨-, rfl⟩ | ⟨-, hlt⟩ <;> omega
      · have hkept : cStr [byteOf hi lo] = [byteOf hi lo] := by
          apply cStr_of_notMem
          rw [List.mem_singleton]
          intro heq
          exact hnul ((byteOf_eq_iff '0' '0' hhi hlo rfl rfl (by decide)
            (by decide)).mp heq.symm)
        refine ⟨byteOf hi lo :: t, ?_, ?_⟩
        · rw [hkept, List.singleton_append, www2idFrom_cons_notMem hbyte, ht]
          rfl
        · rcases hcases with ⟨hnone, rfl⟩ | ⟨hsome, hlt⟩
          · exact .inl ⟨by simp [hnul, hnone], rfl⟩
          · exact .inr ⟨.inr hsome, by simpa using hlt⟩
  | case2 c rest hnot ih =>
      have hc := h.ne_percent hnot
      rw [escape_infix_cons_iff hc] at hpercent ⊢
      obtain ⟨t, ht, hcases⟩ := ih h.of_cons hpercent
      refine ⟨c :: t, ?_, ?_⟩
      · rw [www2idFrom_cons_notMem (by simpa using hc), ht]
        rfl
      · rcases hcases with ⟨hnone, rfl⟩ | ⟨hsome, hlt⟩
        · exact .inl ⟨hnone, rfl⟩
        · exact .inr ⟨hsome, by simpa using hlt⟩
  | case3 => exact ⟨[], www2idFrom_nil, .inl ⟨by simp, rfl⟩⟩

/-- Each escape becomes its byte exactly if none of them stands for a percent sign or a NUL. -/
theorem www2id_eq_decode_iff {s : Text} (h : Escaped s) : www2id s ['%'] [] = .ok (decode s) ↔
    ¬ ['%', '2', '5'] <:+: s ∧ ¬ ['%', '0', '0'] <:+: s := by
  by_cases hpercent : ['%', '2', '5'] <:+: s
  · refine ⟨fun hdecoded => ?_, fun hboth => absurd hpercent hboth.1⟩
    exact absurd (percent_mem_decode h hpercent)
      (notMem_of_www2idFrom hdecoded '%' List.mem_cons_self)
  · obtain ⟨t, ht, hcases⟩ := www2idFrom_eq_or_lt h hpercent
    rw [www2id, ht, Except.ok.injEq]
    rcases hcases with ⟨hnone, rfl⟩ | ⟨hsome, hlt⟩
    · exact ⟨fun _ => ⟨hpercent, hnone⟩, fun _ => rfl⟩
    · constructor
      · rintro rfl
        omega
      · rintro ⟨-, hnone⟩
        exact absurd hsome hnone

/-- A text with an escape for a space. -/
theorem escapedSpace_decoded : www2id ['a', '%', '2', '0', 'b'] ['%'] [] = .ok ['a', ' ', 'b'] := by
  have hescaped : Escaped ['a', '%', '2', '0', 'b'] :=
    ((escaped_nil.cons (by decide)).cons_escape rfl rfl).cons (by decide)
  exact (www2id_eq_decode_iff hescaped).mpr ⟨by decide, by decide⟩

/-- A percent sign that comes out is taken for an escape. -/
theorem escapedPercent_decoded_twice : Escaped ['%', '2', '5', '4', '1'] ∧
    www2id ['%', '2', '5', '4', '1'] ['%'] [] = .ok ['A'] ∧
    decode ['%', '2', '5', '4', '1'] = ['%', '4', '1'] := by
  refine ⟨?_, ?_, rfl⟩
  · exact ((escaped_nil.cons (by decide)).cons (by decide)).cons_escape rfl rfl
  · rw [www2id, www2idFrom_cons_mem (by decide)]
    show www2idFrom ['%'] [] ['%', '4', '1'] = _
    rw [www2idFrom_cons_mem (by decide)]
    show www2idFrom ['%'] [] ['A'] = _
    rw [www2idFrom_cons_notMem (by decide), www2idFrom_nil]
    rfl

end Skunk.BesUtils
