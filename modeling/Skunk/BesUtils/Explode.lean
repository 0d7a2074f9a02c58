import Mathlib.Data.List.GetD
import Skunk.Posix.Path

/-!
# `BESUtil::explode` and `BESUtil::implode`

A list of values as one string with a delimiter between them, where a value that has the delimiter in it
stands in quotes, and back. To find the closing quote, `explode` looks at the two characters before each
quote, and takes two backslashes there for one that is escaped.

A `Value` is one of the two forms a value may have. `explode_implode_iff` says which lists of them come
back.
-/

namespace Skunk.BesUtils.Explode

open Skunk.Posix

structure BesInternalError where
  message : Text
  deriving DecidableEq, Repr

/-! ## Positions in a string -/

/-- `str[i]`: behind the last character there is a NUL. -/
def charAt (str : Text) (i : Nat) : Char := str.getD i '\x00'

def findChar (c : Char) (str : Text) (start : Nat) : Option Nat :=
  ((str.drop start).findIdx? (· = c)).map (start + ·)

def substr (str : Text) (start count : Nat) : Text := (str.drop start).take count

theorem findChar_bounds {c : Char} {str : Text} {start i : Nat} (h : findChar c str start = some i) :
    start ≤ i ∧ i < str.length := by
  obtain ⟨j, hj, rfl⟩ := Option.map_eq_some_iff.mp h
  obtain ⟨hlt, -⟩ := List.findIdx?_eq_some_iff_getElem.mp hj
  rw [List.length_drop] at hlt
  omega

theorem drop_eq_charAt_cons {str : Text} {i : Nat} (h : i < str.length) :
    str.drop i = charAt str i :: str.drop (i + 1) := by
  rw [List.drop_eq_getElem_cons h, charAt, List.getD_eq_getElem _ _ h]

theorem findChar_of_eq {c : Char} {str : Text} {i : Nat} (h : i < str.length)
    (hc : charAt str i = c) : findChar c str i = some i := by
  rw [findChar, drop_eq_charAt_cons h, List.findIdx?_cons, if_pos (by simpa using hc)]
  rfl

theorem findChar_of_ne {c : Char} {str : Text} {i : Nat} (h : i < str.length)
    (hc : charAt str i ≠ c) : findChar c str i = findChar c str (i + 1) := by
  rw [findChar, drop_eq_charAt_cons h, List.findIdx?_cons, if_neg (by simpa using hc), findChar,
    Option.map_map]
  congr 1
  funext j
  show i + (j + 1) = i + 1 + j
  omega

@[simp] theorem charAt_append_cons (a b : Text) (c : Char) : charAt (a ++ c :: b) a.length = c := by
  rw [charAt, List.getD_append_right _ _ _ _ (Nat.le_refl _), Nat.sub_self]
  rfl

section Find

variable {c : Char} {a b : Text}

theorem findChar_eq_none (h : c ∉ a) : findChar c a 0 = none := by
  show ((a.drop 0).findIdx? _).map _ = none
  rw [Option.map_eq_none_iff, List.drop_zero, List.findIdx?_eq_none_iff]
  intro x hx
  simpa using ne_of_mem_of_not_mem hx h

/-- What stands in front of the first `c` does not have to be looked at. -/
theorem findChar_zero_append (h : c ∉ a) (b : Text) :
    findChar c (a ++ b) 0 = (findChar c b 0).map (a.length + ·) := by
  have hfront : a.findIdx? (fun x => decide (x = c)) = none := by
    rw [List.findIdx?_eq_none_iff]
    intro x hx
    simpa using ne_of_mem_of_not_mem hx h
  show (((a ++ b).drop 0).findIdx? _).map _ = (((b.drop 0).findIdx? _).map _).map _
  rw [List.drop_zero, List.drop_zero, List.findIdx?_append, hfront, Option.map_map, Option.none_or,
    Option.map_map]
  congr 1
  funext i
  show 0 + (i + a.length) = a.length + (0 + i)
  omega

theorem findChar_append_cons (h : c ∉ a) (b : Text) : findChar c (a ++ c :: b) 0 = some a.length := by
  have hhead : findChar c (c :: b) 0 = some 0 := by
    show ((c :: b).findIdx? _).map _ = some 0
    rw [List.findIdx?_cons, if_pos (by simp)]
    rfl
  rw [findChar_zero_append h, hhead]
  rfl

/-- If there is a `c` at all, it is behind `a`. -/
theorem le_of_findChar_append (h : c ∉ a) {i : Nat} (hi : findChar c (a ++ b) 0 = some i) :
    a.length ≤ i := by
  rw [findChar_zero_append h] at hi
  obtain ⟨j, -, rfl⟩ := Option.map_eq_some_iff.mp hi
  exact Nat.le_add_right _ _

@[simp] theorem substr_zero_append (a b : Text) : substr (a ++ b) 0 a.length = a := List.take_left

@[simp] theorem drop_append_cons (a b : Text) (c : Char) : (a ++ c :: b).drop (a.length + 1) = b := by
  rw [← List.drop_drop, List.drop_left]
  rfl

end Find

/-! ## `explode` -/

/-- The loop that looks for the end of a quoted value. -/
def endQuote (str : Text) (start qstart : Nat) : Except BesInternalError Nat :=
  match _h : findChar '"' str qstart with
  | none =>
    let currval := substr str start (str.length - start)
    .error ⟨"BESUtil::explode - No end quote after value ".toList ++ currval⟩
  | some aquote =>
    if charAt str (aquote - 1) = '\\' then
      if charAt str (aquote - 2) = '\\' then .ok (aquote + 1) else endQuote str start (aquote + 1)
    else .ok (aquote + 1)
termination_by str.length - qstart
decreasing_by
  have := findChar_bounds _h
  omega

/-- Where the delimiter behind a value is. -/
def nextDelim (delim : Char) (str : Text) (start : Nat) : Except BesInternalError (Option Nat) :=
  if charAt str start = '"' then
    match endQuote str start (start + 1) with
    | .error e => .error e
    | .ok qstart =>
      if charAt str qstart ≠ delim ∧ qstart ≠ str.length then
        let currval := substr str start (qstart - start)
        .error ⟨"BESUtil::explode - No delim after end quote ".toList ++ currval⟩
      else .ok (if qstart = str.length then none else some qstart)
  else .ok (findChar delim str start)

theorem endQuote_bounds {str : Text} {start qstart q : Nat} (h : endQuote str start qstart = .ok q) :
    qstart < q ∧ q ≤ str.length := by
  fun_induction endQuote str start qstart with
  | case1 => cases h
  | case2 qstart aquote hfind hlast hfirst =>
      cases h
      have := findChar_bounds hfind
      omega
  | case3 qstart aquote hfind hlast hfirst ih =>
      have := findChar_bounds hfind
      have := ih h
      omega
  | case4 qstart aquote hfind hlast =>
      cases h
      have := findChar_bounds hfind
      omega

theorem nextDelim_bounds {delim : Char} {str : Text} {start adelim : Nat}
    (h : nextDelim delim str start = .ok (some adelim)) : start ≤ adelim ∧ adelim < str.length := by
  unfold nextDelim at h
  split at h
  · split at h
    · cases h
    next qstart hquote =>
      have hbounds := endQuote_bounds hquote
      split at h
      · cases h
      · split at h
        · cases h
        · cases h
          omega
  · exact findChar_bounds (Except.ok.inj h)

/-- The loop of `explode`. After the last value `start` is `npos + 1`, which is zero. -/
def explodeFrom (delim : Char) (str : Text) (start : Nat) : Except BesInternalError (List Text) :=
  match _h : nextDelim delim str start with
  | .error e => .error e
  | .ok none =>
    let aval := substr str start (str.length - start)
    .ok (if 0 = str.length then [aval, []] else [aval])
  | .ok (some adelim) =>
    let aval := substr str start (adelim - start)
    if adelim + 1 = str.length then .ok [aval, []]
    else (explodeFrom delim str (adelim + 1)).map (aval :: ·)
termination_by str.length - start
decreasing_by
  have := nextDelim_bounds _h
  omega

/-- `explode`: what it puts at the end of the list. -/
def explode (delim : Char) (str : Text) : Except BesInternalError (List Text) :=
  explodeFrom delim str 0

/-! ## `implode` -/

def implodeLoop (delim : Char) : Bool → Text → List Text → Except BesInternalError Text
  | _, result, [] => .ok result
  | first, result, value :: values =>
    let result := if !first then result ++ [delim] else result
    if (findChar delim value 0).isSome ∧ charAt value 0 ≠ '"' then
      .error ⟨"BESUtil::implode - delimiter exists in value ".toList ++ value⟩
    else implodeLoop delim false (result ++ value) values

def implode (values : List Text) (delim : Char) : Except BesInternalError Text :=
  implodeLoop delim true [] values

/-! ## Values -/

/-- What is between the quotes of a value. -/
inductive Piece
  | char (c : Char) (hquote : c ≠ '"') (hbackslash : c ≠ '\\')
  | escapedQuote
  | escapedBackslash
  deriving DecidableEq

def Piece.text : Piece → Text
  | .char c _ _ => [c]
  | .escapedQuote => ['\\', '"']
  | .escapedBackslash => ['\\', '\\']

/-- A value that can stand in a list. -/
inductive Value (delim : Char)
  | plain (s : Text) (hdelim : delim ∉ s) (hquote : s.head? ≠ some '"')
  | quoted (pieces : List Piece)

variable {delim : Char}

def Value.text : Value delim → Text
  | .plain s _ _ => s
  | .quoted pieces => '"' :: (pieces.flatMap Piece.text ++ ['"'])

/-- No escaped quote comes right behind an escaped backslash. -/
def Value.Separate : Value delim → Prop
  | .plain _ _ _ => True
  | .quoted pieces => ¬ [Piece.escapedBackslash, Piece.escapedQuote] <:+: pieces

/-! ## The end of a quoted value -/

theorem endQuote_skip {start : Nat} {c : Char} (hc : c ≠ '"') (front rest : Text) :
    endQuote (front ++ c :: rest) start front.length =
      endQuote (front ++ [c] ++ rest) start (front ++ [c]).length := by
  have hnext : findChar '"' (front ++ c :: rest) front.length =
      findChar '"' (front ++ c :: rest) (front.length + 1) :=
    findChar_of_ne (by simp) (by rwa [charAt_append_cons])
  rw [List.append_assoc, List.length_append, List.singleton_append, endQuote, hnext]
  conv_rhs => rw [endQuote]
  rfl

/-- What is done at a quote depends on the two characters before it. -/
theorem endQuote_quote {start : Nat} (front rest : Text) :
    endQuote (front ++ '"' :: rest) start front.length =
      if charAt (front ++ '"' :: rest) (front.length - 1) = '\\' ∧
          charAt (front ++ '"' :: rest) (front.length - 2) ≠ '\\' then
        endQuote (front ++ ['"'] ++ rest) start (front ++ ['"']).length
      else .ok (front.length + 1) := by
  have hfind : findChar '"' (front ++ '"' :: rest) front.length = some front.length :=
    findChar_of_eq (by simp) (charAt_append_cons _ _ _)
  rw [List.append_assoc, List.length_append, List.singleton_append, endQuote]
  split
  next hnone =>
    rw [hfind] at hnone
    cases hnone
  next j hj =>
    rw [hfind] at hj
    cases hj
    by_cases hlast : charAt (front ++ '"' :: rest) (front.length - 1) = '\\'
    · rw [if_pos hlast]
      by_cases hfirst : charAt (front ++ '"' :: rest) (front.length - 2) = '\\'
      · rw [if_pos hfirst, if_neg (fun h => h.2 hfirst)]
      · rw [if_neg hfirst, if_pos ⟨hlast, hfirst⟩]
        rfl
    · rw [if_neg hlast, if_neg (fun h => hlast h.1)]

/-- If one looks back from behind these characters, does one see an escaped backslash? -/
def Behind : Bool → Text → Prop
  | false, front => ∃ before c, front = before ++ [c] ∧ c ≠ '\\'
  | true, front => ∃ before, front = before ++ ['\\', '\\']

theorem Behind.last {front : Text} (h : Behind false front) (rest : Text) :
    charAt (front ++ rest) (front.length - 1) ≠ '\\' := by
  obtain ⟨before, c, rfl, hc⟩ := h
  rw [List.append_assoc, List.length_append, List.length_singleton, Nat.add_sub_cancel]
  exact (charAt_append_cons before rest c).trans_ne hc

theorem Behind.lastTwo {front : Text} (h : Behind true front) (rest : Text) :
    charAt (front ++ rest) (front.length - 1) = '\\' ∧
      charAt (front ++ rest) (front.length - 2) = '\\' := by
  obtain ⟨before, rfl⟩ := h
  have hlength : (before ++ ['\\', '\\']).length = before.length + 2 := by simp
  rw [hlength, Nat.add_sub_cancel]
  constructor
  · have hlast := charAt_append_cons (before ++ ['\\']) rest '\\'
    rw [List.length_append, List.append_assoc] at hlast
    rw [List.append_assoc]
    exact hlast
  · rw [List.append_assoc]
    exact charAt_append_cons before _ '\\'

/-- A quote that is escaped closes the value after an escaped backslash. -/
def closedEarly : Bool → List Piece → Bool
  | _, [] => false
  | _, .char _ _ _ :: pieces => closedEarly false pieces
  | _, .escapedBackslash :: pieces => closedEarly true pieces
  | afterBackslash, .escapedQuote :: pieces => afterBackslash || closedEarly false pieces

/-- A value is closed too early where an escaped quote comes behind an escaped backslash. -/
theorem closedEarly_iff (afterBackslash : Bool) (pieces : List Piece) :
    closedEarly afterBackslash pieces = true ↔
      afterBackslash = true ∧ pieces.head? = some .escapedQuote ∨
        [Piece.escapedBackslash, Piece.escapedQuote] <:+: pieces := by
  induction pieces generalizing afterBackslash with
  | nil => simp [closedEarly]
  | cons p pieces ih =>
      cases p with
      | char c hquote hbackslash =>
          simp [closedEarly, ih, List.infix_cons_iff, List.cons_prefix_cons]
      | escapedBackslash =>
          have hhead : [Piece.escapedQuote] <+: pieces ↔ pieces.head? = some .escapedQuote := by
            cases pieces <;> simp [List.cons_prefix_cons, eq_comm]
          simp [closedEarly, ih, List.infix_cons_iff, List.cons_prefix_cons, hhead]
      | escapedQuote =>
          simp [closedEarly, ih, List.infix_cons_iff, List.cons_prefix_cons]

/-- The loop comes to the quote behind the pieces, or to one within them. -/
theorem endQuote_pieces (start : Nat) {afterBackslash : Bool} {front : Text}
    (hfront : Behind afterBackslash front) (pieces : List Piece) (rest : Text) :
    ∃ q, endQuote (front ++ (pieces.flatMap Piece.text ++ '"' :: rest)) start front.length = .ok q ∧
      (closedEarly afterBackslash pieces = false ∧
          q = front.length + (pieces.flatMap Piece.text).length + 1 ∨
        closedEarly afterBackslash pieces = true ∧
          q < front.length + (pieces.flatMap Piece.text).length + 1) := by
  induction pieces generalizing afterBackslash front with
  | nil =>
      have hstop : ¬ (charAt (front ++ '"' :: rest) (front.length - 1) = '\\' ∧
          charAt (front ++ '"' :: rest) (front.length - 2) ≠ '\\') := by
        cases afterBackslash with
        | false => exact fun h => hfront.last _ h.1
        | true => exact fun h => h.2 (hfront.lastTwo _).2
      refine ⟨front.length + 1, ?_, .inl ⟨rfl, rfl⟩⟩
      rw [List.flatMap_nil, List.nil_append, endQuote_quote, if_neg hstop]
  | cons p pieces ih =>
      rw [List.flatMap_cons, List.append_assoc, List.length_append, ← Nat.add_assoc]
      cases p with
      | char c hquote hbackslash =>
          have hnext : Behind false (front ++ [c]) := ⟨front, c, rfl, hbackslash⟩
          obtain ⟨q, hq, hcases⟩ := ih hnext
          rw [List.length_append] at hcases
          refine ⟨q, ?_, hcases⟩
          rw [← hq]
          exact endQuote_skip hquote front _
      | escapedBackslash =>
          have hnext : Behind true (front ++ ['\\', '\\']) := ⟨front, rfl⟩
          obtain ⟨q, hq, hcases⟩ := ih hnext
          rw [List.length_append] at hcases
          refine ⟨q, ?_, hcases⟩
          rw [← hq, Piece.text, List.cons_append, endQuote_skip (by decide), List.cons_append,
            endQuote_skip (by decide)]
          simp only [List.append_assoc, List.singleton_append, List.nil_append]
      | escapedQuote =>
          have hstart : endQuote (front ++ (Piece.escapedQuote.text ++
              (pieces.flatMap Piece.text ++ '"' :: rest))) start front.length =
                endQuote (front ++ ['\\'] ++ '"' :: (pieces.flatMap Piece.text ++ '"' :: rest)) start
                  (front ++ ['\\']).length := endQuote_skip (by decide) front _
          -- the quote has a backslash before it, and before that what `front` ends in
          have hlength : (front ++ ['\\']).length - 2 = front.length - 1 := by
            rw [List.length_append, List.length_singleton]
            omega
          have hlast := charAt_append_cons front ('"' :: (pieces.flatMap Piece.text ++ '"' :: rest)) '\\'
          rw [hstart, endQuote_quote, hlength, List.length_append, List.length_singleton,
            Nat.add_sub_cancel, List.append_assoc, List.singleton_append]
          cases afterBackslash with
          | false =>
              have hnext : Behind false (front ++ ['\\', '"']) :=
                ⟨front ++ ['\\'], '"', by simp, by decide⟩
              obtain ⟨q, hq, hcases⟩ := ih hnext
              rw [List.length_append] at hcases
              refine ⟨q, ?_, hcases⟩
              rw [if_pos ⟨hlast, hfront.last _⟩, ← hq]
              simp only [List.append_assoc, List.cons_append, List.nil_append]
          | true =>
              refine ⟨front.length + 1 + 1, ?_, .inr ⟨rfl, ?_⟩⟩
              · rw [if_neg (fun h => h.2 (hfront.lastTwo _).1)]
              · simp only [Piece.text, List.length_cons, List.length_nil]
                omega

/-! ## One value after the other -/

theorem findChar_append (c : Char) (front t : Text) :
    findChar c (front ++ t) front.length = (t.findIdx? (· = c)).map (front.length + ·) := by
  rw [findChar, List.drop_left]

/-- The first delimiter behind a text without one. -/
theorem findChar_delim {s rest : Text} (hs : delim ∉ s)
    (hrest : rest = [] ∨ ∃ behind, rest = delim :: behind) (front : Text) :
    findChar delim (front ++ (s ++ rest)) front.length =
      if rest = [] then none else some (front.length + s.length) := by
  have hnone : s.findIdx? (· = delim) = none := by
    rw [List.findIdx?_eq_none_iff]
    intro c hc
    simpa using ne_of_mem_of_not_mem hc hs
  rw [findChar_append, List.findIdx?_append, hnone]
  rcases hrest with rfl | ⟨behind, rfl⟩
  · rfl
  · simp [List.findIdx?_cons]

/-- Where a value ends, if nothing or a delimiter comes behind it. -/
theorem nextDelim_value (hdelim : delim ≠ '"') (front : Text) (v : Value delim) (rest : Text)
    (hne : v.text ≠ [] ∨ rest ≠ []) (hrest : rest = [] ∨ ∃ behind, rest = delim :: behind) :
    v.Separate ∧ nextDelim delim (front ++ (v.text ++ rest)) front.length =
        .ok (if rest = [] then none else some (front.length + v.text.length)) ∨
      ¬ v.Separate ∧ ∀ adelim, nextDelim delim (front ++ (v.text ++ rest)) front.length =
        .ok adelim → ∃ q < front.length + v.text.length, adelim = some q := by
  cases v with
  | plain s hs hquote =>
      left
      refine ⟨trivial, ?_⟩
      have hfirst : charAt (front ++ (s ++ rest)) front.length ≠ '"' := by
        cases s with
        | nil =>
            rcases hrest with rfl | ⟨behind, rfl⟩
            · simp [Value.text] at hne
            · rwa [List.nil_append, charAt_append_cons]
        | cons c s =>
            rw [List.cons_append, charAt_append_cons]
            simpa using hquote
      rw [Value.text, nextDelim, if_neg hfirst, findChar_delim hs hrest]
  | quoted pieces =>
      have htext : (Value.quoted pieces : Value delim).text ++ rest =
          '"' :: (pieces.flatMap Piece.text ++ '"' :: rest) := by
        simp [Value.text]
      have hlength : (Value.quoted pieces : Value delim).text.length =
          (pieces.flatMap Piece.text).length + 2 := by
        simp [Value.text]
      have hbehind : Behind false (front ++ ['"']) := ⟨front, '"', rfl, by decide⟩
      -- behind the opening quote the closing one is looked for
      obtain ⟨q, hq, hcases⟩ := endQuote_pieces front.length hbehind pieces rest
      rw [List.append_assoc, List.singleton_append, List.length_append, List.length_singleton,
        ← htext] at hq
      rw [List.length_append, List.length_singleton] at hcases
      have hopen : charAt (front ++ ((Value.quoted pieces : Value delim).text ++ rest)) front.length =
          '"' := by
        rw [htext, charAt_append_cons]
      have hstr : (front ++ ((Value.quoted pieces : Value delim).text ++ rest)).length =
          front.length + (Value.quoted pieces : Value delim).text.length + rest.length := by
        rw [List.length_append, List.length_append, Nat.add_assoc]
      rw [nextDelim, if_pos hopen, hq]
      dsimp only
      rcases hcases with ⟨hnot, heq⟩ | ⟨hearly, hlt⟩
      · left
        have hseparate : (Value.quoted pieces : Value delim).Separate := by
          intro hsub
          rw [(closedEarly_iff false pieces).mpr (.inr hsub)] at hnot
          cases hnot
        -- it is the last character of the value
        have hend : q = front.length + (Value.quoted pieces : Value delim).text.length := by omega
        refine ⟨hseparate, ?_⟩
        rcases hrest with rfl | ⟨behind, rfl⟩
        · have hlast : q = (front ++ ((Value.quoted pieces : Value delim).text ++ [])).length := by
            rw [hstr, hend]
            rfl
          rw [if_neg (fun h => h.2 hlast), if_pos hlast]
          rfl
        · have hdelimAt : charAt (front ++ ((Value.quoted pieces : Value delim).text ++
              delim :: behind)) q = delim := by
            rw [hend, ← List.append_assoc, ← List.length_append, charAt_append_cons]
          have hmore : q ≠ (front ++ ((Value.quoted pieces : Value delim).text ++
              delim :: behind)).length := by
            rw [hstr, List.length_cons]
            omega
          rw [if_neg (fun h => h.1 hdelimAt), if_neg hmore, hend]
          rfl
      · right
        -- a quote behind an escaped backslash is taken for the closing one
        have hsub : [Piece.escapedBackslash, Piece.escapedQuote] <:+: pieces := by
          rcases (closedEarly_iff false pieces).mp hearly with ⟨h, -⟩ | h
          · cases h
          · exact h
        refine ⟨fun hseparate => hseparate hsub, ?_⟩
        intro adelim hadelim
        have hmore : q ≠ (front ++ ((Value.quoted pieces : Value delim).text ++ rest)).length := by
          omega
        rw [if_neg hmore] at hadelim
        split at hadelim
        · cases hadelim
        · exact ⟨q, by omega, (Except.ok.inj hadelim).symm⟩

/-- The values behind the first one, each with its delimiter. -/
def joinRest (values : List (Value delim)) : Text := values.flatMap fun v => delim :: v.text

theorem substr_append (front s rest : Text) :
    substr (front ++ (s ++ rest)) front.length s.length = s := by
  rw [substr, List.drop_left, List.take_left]

theorem explodeFrom_none {str : Text} {start : Nat} (h : nextDelim delim str start = .ok none)
    (hne : str ≠ []) :
    explodeFrom delim str start = .ok [substr str start (str.length - start)] := by
  have hpos := List.length_pos_iff.mpr hne
  rw [explodeFrom]
  split
  next herror => rw [h] at herror; cases herror
  next =>
    dsimp only
    rw [if_neg (by omega)]
  next hsome => rw [h] at hsome; cases hsome

/-- With a delimiter ahead, what stands in front of it is a value, and the rest is taken apart. -/
theorem explodeFrom_some {str : Text} {start adelim : Nat}
    (h : nextDelim delim str start = .ok (some adelim)) :
    explodeFrom delim str start =
      if adelim + 1 = str.length then .ok [substr str start (adelim - start), []]
      else (explodeFrom delim str (adelim + 1)).map (substr str start (adelim - start) :: ·) := by
  rw [explodeFrom]
  split
  next herror => rw [h] at herror; cases herror
  next hnone => rw [h] at hnone; cases hnone
  next hsome =>
    rw [h] at hsome
    cases hsome
    rfl

theorem explodeFrom_error {str : Text} {start : Nat} {e : BesInternalError}
    (h : nextDelim delim str start = .error e) : explodeFrom delim str start = .error e := by
  rw [explodeFrom]
  split
  next herror =>
    rw [h] at herror
    cases herror
    rfl
  next hnone => rw [h] at hnone; cases hnone
  next hsome => rw [h] at hsome; cases hsome

/-- The first value ends where the delimiter was found. -/
theorem explodeFrom_head {str s : Text} {start : Nat} {texts : List Text}
    (h : explodeFrom delim str start = .ok (s :: texts)) : ∃ adelim,
      nextDelim delim str start = .ok adelim ∧ ∀ q, adelim = some q → s = substr str start (q - start) := by
  cases hnext : nextDelim delim str start with
  | error e =>
      rw [explodeFrom_error hnext] at h
      cases h
  | ok adelim =>
      refine ⟨adelim, rfl, ?_⟩
      rintro q rfl
      rw [explodeFrom_some hnext] at h
      split at h
      · cases h
        rfl
      · cases hrest : explodeFrom delim str (q + 1) with
        | error e => rw [hrest] at h; cases h
        | ok values =>
            rw [hrest] at h
            cases h
            rfl

theorem explodeFrom_ne {str s : Text} {start n : Nat} {texts : List Text} (hn : n ≤ start + s.length)
    (h : ∀ adelim, nextDelim delim str start = .ok adelim → ∃ q < n, adelim = some q) :
    explodeFrom delim str start ≠ .ok (s :: texts) := by
  intro hexplode
  obtain ⟨adelim, hnext, hhead⟩ := explodeFrom_head hexplode
  obtain ⟨q, hq, rfl⟩ := h adelim hnext
  have hbounds := nextDelim_bounds hnext
  have hlength := congrArg List.length (hhead q rfl)
  rw [substr, List.length_take] at hlength
  omega

theorem map_cons_eq_ok_iff {ε α : Type} {x : Except ε (List α)} {a : α} {l : List α} :
    x.map (a :: ·) = .ok (a :: l) ↔ x = .ok l := by
  cases x <;> simp [Except.map]

/-- The values come back from where they begin. -/
theorem explodeFrom_iff (hdelim : delim ≠ '"') (values : List (Value delim)) (v : Value delim)
    (front : Text) (hne : v.text ≠ [] ∨ values ≠ []) :
    explodeFrom delim (front ++ (v.text ++ joinRest values)) front.length =
        .ok (v.text :: values.map Value.text) ↔
      v.Separate ∧ ∀ w ∈ values, w.Separate := by
  induction values generalizing v front with
  | nil =>
      have hv : v.text ≠ [] := by simpa using hne
      rcases nextDelim_value hdelim front v [] (.inl hv) (.inl rfl) with
        ⟨hseparate, hnext⟩ | ⟨hnot, hnext⟩
      · refine iff_of_true ?_ ⟨hseparate, by simp⟩
        show explodeFrom delim (front ++ (v.text ++ [])) front.length = _
        rw [explodeFrom_none hnext (by simp [hv])]
        have hcount : (front ++ (v.text ++ [])).length - front.length = v.text.length := by
          simp
        rw [hcount, substr_append]
        rfl
      · exact iff_of_false (explodeFrom_ne (Nat.le_refl _) hnext) (fun h => hnot h.1)
  | cons w values ih =>
      have hjoin : joinRest (w :: values) = delim :: (w.text ++ joinRest values) := rfl
      rw [hjoin]
      rcases nextDelim_value hdelim front v (delim :: (w.text ++ joinRest values))
        (.inr (List.cons_ne_nil _ _)) (.inr ⟨_, rfl⟩) with ⟨hseparate, hnext⟩ | ⟨hnot, hnext⟩
      · rw [if_neg (List.cons_ne_nil _ _)] at hnext
        rw [explodeFrom_some hnext, Nat.add_sub_cancel_left, substr_append]
        have hlength : (front ++ (v.text ++ delim :: (w.text ++ joinRest values))).length =
            front.length + v.text.length + 1 + (w.text ++ joinRest values).length := by
          simp only [List.length_append, List.length_cons]
          omega
        by_cases hlast : w.text ++ joinRest values = []
        · -- the string ends with the delimiter, so the last value is empty
          obtain ⟨hw, hvalues⟩ := List.append_eq_nil_iff.mp hlast
          obtain rfl : values = [] := by
            cases values with
            | nil => rfl
            | cons u values => cases hvalues
          have hplain : w.Separate := by
            cases w with
            | plain s hs hquote => trivial
            | quoted pieces => cases hw
          rw [if_pos (by rw [hlength, hlast]; rfl)]
          refine iff_of_true ?_ ⟨hseparate, by simpa using hplain⟩
          rw [List.map_singleton, hw]
        · -- go on behind the delimiter, with the first value and the delimiter in front
          have hpos := List.length_pos_iff.mpr hlast
          have hmove : front ++ (v.text ++ delim :: (w.text ++ joinRest values)) =
              front ++ v.text ++ [delim] ++ (w.text ++ joinRest values) := by simp
          have hstart : front.length + v.text.length + 1 = (front ++ v.text ++ [delim]).length := by
            simp only [List.length_append, List.length_singleton]
          have hmore : w.text ≠ [] ∨ values ≠ [] := by
            rw [← not_and_or]
            rintro ⟨hw, rfl⟩
            exact hlast (by rw [hw]; rfl)
          have htail := ih w (front ++ v.text ++ [delim]) hmore
          rw [if_neg (by omega), hmove, hstart, List.map_cons, map_cons_eq_ok_iff, htail,
            List.forall_mem_cons]
          exact ⟨fun h => ⟨hseparate, h⟩, fun h => h.2⟩
      · exact iff_of_false (explodeFrom_ne (Nat.le_refl _) hnext) (fun h => hnot h.1)

/-- A value that `implode` accepts: it is quoted, or the delimiter is not in it. -/
def Accepted (delim : Char) (value : Text) : Prop :=
  ¬ ((findChar delim value 0).isSome ∧ charAt value 0 ≠ '"')

theorem accepted_of_notMem {value : Text} (h : delim ∉ value) : Accepted delim value := by
  rintro ⟨hfind, -⟩
  rw [findChar_eq_none h] at hfind
  cases hfind

/-- A value that can stand in a list can be put into one. -/
theorem Value.accepted (v : Value delim) : Accepted delim v.text := by
  cases v with
  | plain s hs _ => exact accepted_of_notMem hs
  | quoted pieces =>
      rintro ⟨-, hquote⟩
      exact hquote rfl

theorem implodeLoop_eq (values : List (Value delim)) (result : Text) :
    implodeLoop delim false result (values.map Value.text) = .ok (result ++ joinRest values) := by
  induction values generalizing result with
  | nil =>
      rw [joinRest, List.flatMap_nil, List.append_nil]
      rfl
  | cons v values ih =>
      rw [List.map_cons, implodeLoop, if_neg v.accepted, ih]
      simp [joinRest]

theorem implode_cons (v : Value delim) (values : List (Value delim)) :
    implode ((v :: values).map Value.text) delim = .ok (v.text ++ joinRest values) := by
  rw [implode, List.map_cons, implodeLoop, if_neg v.accepted, implodeLoop_eq]
  rfl

/-- The empty string is read as two values. -/
theorem explode_nil : explode delim [] = .ok [[], []] := by
  have hnext : nextDelim delim [] 0 = .ok none := by
    rw [nextDelim, if_neg (by decide)]
    rfl
  rw [explode, explodeFrom]
  split
  next herror => rw [hnext] at herror; cases herror
  next => rfl
  next hsome => rw [hnext] at hsome; cases hsome

/-- A list comes back exactly if it is not a single empty string and in none of its quoted values an
escaped quote comes right behind an escaped backslash. -/
theorem explode_implode_iff (hdelim : delim ≠ '"') (values : List (Value delim)) (hne : values ≠ []) :
    (implode (values.map Value.text) delim).bind (explode delim) = .ok (values.map Value.text) ↔
      values.map Value.text ≠ [[]] ∧ ∀ v ∈ values, v.Separate := by
  cases values with
  | nil => exact absurd rfl hne
  | cons v values =>
      rw [implode_cons]
      show explode delim (v.text ++ joinRest values) = _ ↔ _
      by_cases hempty : v.text = [] ∧ values = []
      · obtain ⟨hv, rfl⟩ := hempty
        rw [hv, List.map_singleton, hv]
        refine iff_of_false ?_ (fun h => h.1 rfl)
        intro hexplode
        have htwo : explode delim [] = .ok [[]] := hexplode
        rw [explode_nil] at htwo
        cases htwo
      · have hiff := explodeFrom_iff hdelim values v [] (not_and_or.mp hempty)
        rw [List.forall_mem_cons]
        refine hiff.trans ⟨fun h => ⟨?_, h⟩, fun h => h.2⟩
        intro htexts
        obtain ⟨hv, hvalues⟩ := List.cons.inj htexts
        exact hempty ⟨hv, List.map_eq_nil_iff.mp hvalues⟩

/-- A plain value, one with the delimiter in it, and an empty one. -/
theorem threeValues_kept : (implode [['a'], ['"', ',', '"'], []] ',').bind (explode ',') =
    .ok [['a'], ['"', ',', '"'], []] := by
  let values : List (Value ',') :=
    [.plain ['a'] (by decide) (by decide), .quoted [.char ',' (by decide) (by decide)],
      .plain [] (by decide) (by decide)]
  refine (explode_implode_iff (by decide) values (List.cons_ne_nil _ _)).mpr ⟨by decide, ?_⟩
  intro v hv
  simp only [values, List.mem_cons, List.not_mem_nil, or_false] at hv
  rcases hv with rfl | rfl | rfl
  · trivial
  · show ¬ _ <:+: _
    decide
  · trivial

/-- A list with an empty string comes back as two of them, and a quoted value that is an escaped
backslash and an escaped quote does not come back. -/
theorem emptyString_and_escapes_not_kept :
    (implode [[]] ',' = .ok [] ∧ explode ',' [] = .ok [[], []]) ∧
      implode [['"', '\\', '\\', '\\', '"', '"']] ',' = .ok ['"', '\\', '\\', '\\', '"', '"'] ∧
      explode ',' ['"', '\\', '\\', '\\', '"', '"'] ≠ .ok [['"', '\\', '\\', '\\', '"', '"']] := by
  refine ⟨⟨rfl, explode_nil⟩, rfl, ?_⟩
  intro hexplode
  let v : Value ',' := .quoted [.escapedBackslash, .escapedQuote]
  have hiff := explodeFrom_iff (by decide) [] v [] (.inl (by decide))
  exact (hiff.mp hexplode).1 (List.infix_refl _)

/-! ## From a string and back

Whatever `explode` accepts, the values and the delimiters it has found between them make up the string. -/

theorem charAt_substr {str : Text} {start count : Nat} (h : 0 < count) :
    charAt (substr str start count) 0 = charAt str start := by
  rw [charAt, charAt, substr, List.getD_eq_getElem?_getD, List.getD_eq_getElem?_getD,
    List.getElem?_take_of_lt h, List.getElem?_drop, Nat.add_zero]

/-- What stands in front of the first delimiter, or all there is. -/
theorem notMem_of_findChar {str : Text} {start : Nat} {adelim : Option Nat}
    (h : findChar delim str start = adelim) :
    delim ∉ substr str start (adelim.getD str.length - start) := by
  subst h
  rw [findChar, substr]
  cases hidx : (str.drop start).findIdx? (· = delim) with
  | none =>
      intro hmem
      rw [List.findIdx?_eq_none_iff] at hidx
      simpa using hidx delim (List.mem_of_mem_take hmem)
  | some j =>
      obtain ⟨hj, -, hbefore⟩ := List.findIdx?_eq_some_iff_getElem.mp hidx
      intro hmem
      obtain ⟨i, hi, hdelim⟩ := List.getElem_of_mem hmem
      have hlt : i < j := by
        rw [List.length_take] at hi
        change i < min (start + j - start) _ at hi
        omega
      rw [List.getElem_take] at hdelim
      exact hbefore i hlt (by simpa using hdelim)

theorem charAt_of_findChar {str : Text} {start q : Nat} (h : findChar delim str start = some q) :
    charAt str q = delim := by
  obtain ⟨j, hidx, rfl⟩ := Option.map_eq_some_iff.mp h
  obtain ⟨hj, hdelim, -⟩ := List.findIdx?_eq_some_iff_getElem.mp hidx
  rw [List.getElem_drop, decide_eq_true_eq] at hdelim
  rw [List.length_drop] at hj
  rw [charAt, List.getD_eq_getElem _ _ (by omega)]
  exact hdelim

/-- What `explode` takes as a value is accepted by `implode`, and where it found a delimiter there is
one. -/
theorem nextDelim_ok {str : Text} {start : Nat} {adelim : Option Nat}
    (h : nextDelim delim str start = .ok adelim) :
    Accepted delim (substr str start (adelim.getD str.length - start)) ∧
      ∀ q, adelim = some q → charAt str q = delim := by
  unfold nextDelim at h
  split at h
  next hquote =>
    split at h
    · cases h
    next qstart hend =>
      obtain ⟨hlt, hle⟩ := endQuote_bounds hend
      split at h
      · cases h
      next hdelim =>
        have hgetD : adelim.getD str.length = qstart := by
          cases h
          split
          next heq => exact heq.symm
          · rfl
        constructor
        · rintro ⟨-, hne⟩
          rw [hgetD, charAt_substr (by omega)] at hne
          exact hne hquote
        · rintro q rfl
          split at h
          · cases h
          next hmore =>
            cases h
            by_contra hne
            exact hdelim ⟨hne, hmore⟩
  · have hfind := Except.ok.inj h
    refine ⟨accepted_of_notMem (notMem_of_findChar hfind), ?_⟩
    rintro q rfl
    exact charAt_of_findChar hfind

/-- A value, the delimiter behind it, and the rest of the string. -/
theorem drop_eq_substr_append {str : Text} {start q : Nat} (hle : start ≤ q) (hlt : q < str.length)
    (hq : charAt str q = delim) :
    str.drop start = substr str start (q - start) ++ delim :: str.drop (q + 1) := by
  have hdrop : (str.drop start).drop (q - start) = delim :: str.drop (q + 1) := by
    rw [List.drop_drop, Nat.add_sub_cancel' hle, drop_eq_charAt_cons hlt, hq]
  rw [← hdrop, substr, List.take_append_drop]

/-- What is made of the values from some place on is the rest of the string from there. -/
theorem implodeLoop_explodeFrom {str : Text} (hne : str ≠ []) {start : Nat} {values : List Text}
    (h : explodeFrom delim str start = .ok values) (first : Bool) (result : Text) :
    implodeLoop delim first result values =
      .ok ((if !first then result ++ [delim] else result) ++ str.drop start) := by
  induction hn : str.length - start using Nat.strong_induction_on generalizing start values first result with
  | _ n ih =>
      cases hnext : nextDelim delim str start with
      | error e =>
          rw [explodeFrom_error hnext] at h
          cases h
      | ok adelim =>
          obtain ⟨haccepted, hdelim⟩ := nextDelim_ok hnext
          cases adelim with
          | none =>
              -- the last value goes to the end
              have hend : substr str start (str.length - start) = str.drop start := by
                rw [substr, ← List.length_drop, List.take_length]
              rw [explodeFrom_none hnext hne] at h
              cases h
              change Accepted delim (substr str start (str.length - start)) at haccepted
              rw [implodeLoop, if_neg haccepted, implodeLoop, hend]
          | some q =>
              obtain ⟨hle, hlt⟩ := nextDelim_bounds hnext
              have hdrop := drop_eq_substr_append hle hlt (hdelim q rfl)
              change Accepted delim (substr str start (q - start)) at haccepted
              rw [explodeFrom_some hnext] at h
              split at h
              next hlast =>
                -- behind the last delimiter there is an empty value
                cases h
                rw [hlast, List.drop_length] at hdrop
                rw [implodeLoop, if_neg haccepted, implodeLoop,
                  if_neg (accepted_of_notMem List.not_mem_nil), implodeLoop, hdrop]
                simp
              next hmore =>
                cases hrest : explodeFrom delim str (q + 1) with
                | error e =>
                    rw [hrest] at h
                    cases h
                | ok rest =>
                    rw [hrest] at h
                    cases h
                    rw [implodeLoop, if_neg haccepted, ih _ (by omega) hrest _ _ rfl, hdrop]
                    simp

/-- The values that `explode` finds in a string make up the string again. -/
theorem implode_explode {s : Text} (hs : s ≠ []) {values : List Text} (h : explode delim s = .ok values) :
    implode values delim = .ok s :=
  implodeLoop_explodeFrom hs h true []

/-- A quoted value with the delimiter in it, and an empty one at the end. -/
theorem implode_explode_quoted : implode ["\"a,b\"".toList, []] ',' = .ok "\"a,b\",".toList := by
  have hopen : charAt "\"a,b\",".toList 0 = '"' := rfl
  have hquote : endQuote "\"a,b\",".toList 0 (0 + 1) = .ok 5 := by
    rw [endQuote]
    rfl
  have hnext : nextDelim ',' "\"a,b\",".toList 0 = .ok (some 5) := by
    unfold nextDelim
    rw [if_pos hopen, hquote]
    rfl
  have hexplode : explode ',' "\"a,b\",".toList = .ok ["\"a,b\"".toList, []] := by
    rw [explode, explodeFrom_some hnext]
    rfl
  exact implode_explode (by decide) hexplode

end Skunk.BesUtils.Explode
