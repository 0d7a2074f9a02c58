import Skunk.BesUtils.Paths

/-!
# Tokens of a path

`tokenize` runs two cursors over a string, one to the beginning of a token and one to its end, and
`split` reads items from a stream and leaves out the empty ones. For one delimiter both give the words
of the string (`split_eq_tokenize`).

`separateCatalogFromPath` looks for a catalog under the first token of a path and cuts as many characters
off the path as the token has. That is right if `normalize_path` has left no slash in front of it
(`separateCatalogFromPath_iff`).
-/

namespace Skunk.BesUtils.Paths

open Skunk.Posix Skunk.Text Skunk.BesUtils.Explode

/-! ## `tokenize` -/

/-- A search from a position. There is nothing behind `npos`. -/
def findFrom (p : Char → Bool) (str : Text) : Option Nat → Option Nat
  | none => none
  | some pos => ((str.drop pos).findIdx? p).map (pos + ·)

def findFirstOf (delimiters str : Text) (pos : Option Nat) : Option Nat :=
  findFrom (· ∈ delimiters) str pos

def findFirstNotOf (delimiters str : Text) (pos : Option Nat) : Option Nat :=
  findFrom (· ∉ delimiters) str pos

theorem findFrom_eq_some {p : Char → Bool} {str : Text} {pos : Option Nat} {i : Nat}
    (h : findFrom p str pos = some i) :
    ∃ start, pos = some start ∧ start ≤ i ∧ ∃ hi : i < str.length, p (str.get ⟨i, hi⟩) = true := by
  cases pos with
  | none => cases h
  | some start =>
      obtain ⟨j, hj, rfl⟩ := Option.map_eq_some_iff.mp h
      obtain ⟨hlt, hp, -⟩ := List.findIdx?_eq_some_iff_getElem.mp hj
      rw [List.length_drop] at hlt
      rw [List.getElem_drop] at hp
      exact ⟨start, rfl, Nat.le_add_right _ _, by omega, hp⟩

/-- How much of the string a cursor has not seen. -/
def remaining (str : Text) : Option Nat → Nat
  | none => 0
  | some pos => str.length - pos + 1

/-- The cursor moves on: the delimiter behind a token is not in the next one. -/
theorem remaining_lt (delimiters str : Text) (lastPos : Nat) :
    remaining str (findFirstNotOf delimiters str (findFirstOf delimiters str (some lastPos))) <
      remaining str (some lastPos) := by
  cases hnext : findFirstNotOf delimiters str (findFirstOf delimiters str (some lastPos)) with
  | none => exact Nat.succ_pos _
  | some next =>
      obtain ⟨pos, hpos, hle, hlt, hnot⟩ := findFrom_eq_some hnext
      obtain ⟨start, hstart, hle', hlt', hdelim⟩ := findFrom_eq_some hpos
      cases hstart
      -- the two searches cannot stop at the same character
      have hne : pos ≠ next := by
        rintro rfl
        simp only [decide_eq_true_eq] at hnot hdelim
        exact hnot hdelim
      show str.length - next + 1 < str.length - lastPos + 1
      omega

/-- `str.substr(lastPos, pos - lastPos)`: with `npos` it goes to the end. -/
def tokenAt (str : Text) (lastPos : Nat) : Option Nat → Text
  | none => str.drop lastPos
  | some pos => substr str lastPos (pos - lastPos)

/-- The loop of `tokenize`. The second cursor is where `find_first_of` comes to from the first, so the loop
ends when the first is `npos`. -/
def tokenizeFrom (delimiters str : Text) : Option Nat → List Text
  | none => []
  | some lastPos =>
    let pos := findFirstOf delimiters str (some lastPos)
    tokenAt str lastPos pos :: tokenizeFrom delimiters str (findFirstNotOf delimiters str pos)
termination_by lastPos => remaining str lastPos
decreasing_by exact remaining_lt delimiters str lastPos

def tokenize (str : Text) (tokens : List Text) (delimiters : Text) : List Text :=
  tokens ++ tokenizeFrom delimiters str (findFirstNotOf delimiters str (some 0))

/-! ## `split` -/

/-- A `stringstream` to read from: what is left of the string, and that the end was not met. -/
structure StringStream where
  rest : Text
  good : Bool

/-- `getline`. The delimiter is taken from the stream and is not in the item. -/
def getline (delim : Char) (ss : StringStream) : Option (Text × StringStream) :=
  if ss.good = false ∨ ss.rest = [] then none
  else
    let item := ss.rest.takeWhile (· ≠ delim)
    match ss.rest.dropWhile (· ≠ delim) with
    | [] => some (item, ⟨[], false⟩)
    | _ :: rest => some (item, ⟨rest, true⟩)

theorem getline_eq_none {delim : Char} {ss : StringStream} (h : getline delim ss = none) :
    ss.good = false ∨ ss.rest = [] := by
  unfold getline at h
  split at h
  next hend => exact hend
  · dsimp only at h
    split at h <;> cases h

/-- An item goes to the first delimiter, or to the end, which is then met. -/
theorem getline_eq_some {delim : Char} {ss ss' : StringStream} {item : Text}
    (h : getline delim ss = some (item, ss')) : ss.rest ≠ [] ∧ delim ∉ item ∧
      (ss.rest = item ∧ ss' = ⟨[], false⟩ ∨ ss.rest = item ++ delim :: ss'.rest ∧ ss'.good = true) := by
  unfold getline at h
  split at h
  · cases h
  next hgood =>
    have hne := (not_or.mp hgood).2
    dsimp only at h
    obtain ⟨hnot, hall⟩ | ⟨front, behind, hsplit, hfree, hfront, hbehind⟩ :=
      split_at_first delim ss.rest
    · have hnil : ss.rest.dropWhile (· ≠ delim) = [] := by
        rw [List.dropWhile_eq_nil_iff]
        intro c hc
        simpa using ne_of_mem_of_not_mem hc hnot
      rw [hnil, hall] at h
      cases h
      exact ⟨hne, hnot, .inl ⟨rfl, rfl⟩⟩
    · rw [hbehind, hfront] at h
      cases h
      exact ⟨hne, hfree, .inr ⟨hsplit, rfl⟩⟩

theorem getline_lt {delim : Char} {ss ss' : StringStream} {item : Text}
    (h : getline delim ss = some (item, ss')) : ss'.rest.length < ss.rest.length := by
  obtain ⟨hne, -, ⟨-, rfl⟩ | ⟨hrest, -⟩⟩ := getline_eq_some h
  · exact List.length_pos_iff.mpr hne
  · rw [hrest, List.length_append, List.length_cons]
    omega

def splitFrom (delim : Char) (skipEmpty : Bool) (ss : StringStream) : List Text :=
  match _h : getline delim ss with
  | none => []
  | some (item, ss') =>
    if item = [] ∧ skipEmpty = true then splitFrom delim skipEmpty ss'
    else item :: splitFrom delim skipEmpty ss'
termination_by ss.rest.length
decreasing_by
  · exact getline_lt _h
  · exact getline_lt _h

def split (s : Text) (delim : Char) (skipEmpty : Bool) : List Text := splitFrom delim skipEmpty ⟨s, true⟩

/-- An item gives the word that it is, and the rest of the stream the words behind it. -/
theorem words_getline {delim : Char} {ss ss' : StringStream} {item : Text}
    (h : getline delim ss = some (item, ss')) :
    (ss'.good = true ∨ ss'.rest = []) ∧
      words delim ss.rest = (if item = [] then [] else [item]) ++ words delim ss'.rest := by
  obtain ⟨-, hfree, ⟨hrest, rfl⟩ | ⟨hrest, hgood⟩⟩ := getline_eq_some h
  · refine ⟨.inr rfl, ?_⟩
    rw [hrest, words_of_notMem hfree, words_nil, List.append_nil]
  · refine ⟨.inl hgood, ?_⟩
    rw [hrest, words_append_sep, words_of_notMem hfree]

theorem splitFrom_eq_words (delim : Char) (ss : StringStream) (hgood : ss.good = true ∨ ss.rest = []) :
    splitFrom delim true ss = words delim ss.rest := by
  -- along the loop; a stream that has met the end has nothing left to give
  fun_induction splitFrom delim true ss with
  | case1 ss hend =>
      have hnil : ss.rest = [] := by
        obtain hbad | hnil := getline_eq_none hend
        · exact hgood.resolve_left (by simp [hbad])
        · exact hnil
      rw [hnil, words_nil]
  | case2 ss item ss' hline hskip ih =>
      obtain ⟨hgood', hwords⟩ := words_getline hline
      rw [hwords, if_pos hskip.1, ih hgood']
      rfl
  | case3 ss item ss' hline hkeep ih =>
      obtain ⟨hgood', hwords⟩ := words_getline hline
      have hne : item ≠ [] := fun hnil => hkeep ⟨hnil, rfl⟩
      rw [hwords, if_neg hne, ih hgood']
      rfl

theorem split_eq_words (s : Text) (delim : Char) : split s delim true = words delim s :=
  splitFrom_eq_words delim ⟨s, true⟩ (.inl rfl)

/-! ## The tokens are the words -/

section

variable {sep : Char}

theorem findFrom_append (p : Char → Bool) (front rest : Text) :
    findFrom p (front ++ rest) (some front.length) = (rest.findIdx? p).map (front.length + ·) := by
  rw [findFrom, List.drop_left]

/-- The first cursor passes over separators. -/
theorem findFirstNotOf_skip (front : Text) (n : Nat) {rest : Text} (h : rest.head? ≠ some sep)
    (hne : rest ≠ []) :
    findFirstNotOf [sep] (front ++ (List.replicate n sep ++ rest)) (some front.length) =
      some (front ++ List.replicate n sep).length := by
  obtain ⟨c, rest, rfl⟩ := List.exists_cons_of_ne_nil hne
  have hc : c ≠ sep := fun hc => h (congrArg some hc)
  have hidx : (List.replicate n sep ++ c :: rest).findIdx? (· ∉ [sep]) = some n := by
    rw [List.findIdx?_append]
    simp [List.findIdx?_replicate, List.findIdx?_cons, hc]
  rw [findFirstNotOf, findFrom_append, hidx, List.length_append, List.length_replicate]
  rfl

theorem findFirstNotOf_blank (front : Text) (n : Nat) :
    findFirstNotOf [sep] (front ++ List.replicate n sep) (some front.length) = none := by
  rw [findFirstNotOf, findFrom_append]
  simp [List.findIdx?_replicate]

/-- What comes behind a word is nothing or a separator. -/
theorem head?_gaps {others : List (Nat × Text)} (trail : Nat)
    (h : ∀ o ∈ others, 0 < o.1 ∧ IsWord sep o.2) :
    Spaced.gaps sep others ++ List.replicate trail sep = [] ∨
      (Spaced.gaps sep others ++ List.replicate trail sep).head? = some sep := by
  cases others with
  | nil =>
      cases trail with
      | zero => exact .inl rfl
      | succ n => exact .inr rfl
  | cons o os =>
      obtain ⟨n, hn⟩ := Nat.exists_eq_succ_of_ne_zero (h o List.mem_cons_self).1.ne'
      right
      simp [hn, List.replicate_succ]

/-- The second one stops at the separator behind the word. -/
theorem tokenizeFrom_word (front : Text) {w rest : Text} (hw : IsWord sep w)
    (hrest : rest = [] ∨ rest.head? = some sep) :
    tokenizeFrom [sep] (front ++ (w ++ rest)) (some front.length) =
      w :: tokenizeFrom [sep] (front ++ (w ++ rest))
        (findFirstNotOf [sep] (front ++ (w ++ rest)) (some (front ++ w).length)) := by
  have hfree : w.findIdx? (· ∈ [sep]) = none := by
    rw [List.findIdx?_eq_none_iff]
    intro c hc
    simpa using ne_of_mem_of_not_mem hc hw.free
  rw [tokenizeFrom]
  obtain rfl | hsep := hrest
  · -- it is the last token, and both cursors go to the end
    have hpos : findFirstOf [sep] (front ++ (w ++ [])) (some front.length) = none := by
      rw [findFirstOf, findFrom_append, List.append_nil, hfree]
      rfl
    have hnext : findFirstNotOf [sep] (front ++ (w ++ [])) (some (front ++ w).length) = none := by
      rw [← List.append_assoc]
      exact findFirstNotOf_blank (front ++ w) 0
    rw [hpos, hnext, tokenAt, List.drop_left, List.append_nil]
    rfl
  · obtain ⟨rest, rfl⟩ := List.head?_eq_some_iff.mp hsep
    have hpos : findFirstOf [sep] (front ++ (w ++ sep :: rest)) (some front.length) =
        some (front ++ w).length := by
      rw [findFirstOf, findFrom_append, List.findIdx?_append, hfree, List.length_append]
      simp [List.findIdx?_cons]
    rw [hpos, tokenAt, substr, List.drop_left, List.length_append, Nat.add_sub_cancel_left,
      List.take_left]

/-- The tokens are the words, whatever gaps are between them. -/
theorem tokenizeFrom_gaps (front : Text) {others : List (Nat × Text)} (trail : Nat)
    (h : ∀ o ∈ others, 0 < o.1 ∧ IsWord sep o.2) :
    tokenizeFrom [sep] (front ++ (Spaced.gaps sep others ++ List.replicate trail sep))
        (findFirstNotOf [sep] (front ++ (Spaced.gaps sep others ++ List.replicate trail sep))
          (some front.length)) = others.map Prod.snd := by
  induction others generalizing front with
  | nil =>
      rw [Spaced.gaps_nil, List.nil_append, findFirstNotOf_blank, tokenizeFrom]
      rfl
  | cons o os ih =>
      -- one turn of the loop takes a gap and the word behind it
      obtain ⟨n, w⟩ := o
      obtain ⟨⟨-, hw⟩, hos⟩ := List.forall_mem_cons.mp h
      have hstr : front ++ (Spaced.gaps sep ((n, w) :: os) ++ List.replicate trail sep) =
          front ++ (List.replicate n sep ++
            (w ++ (Spaced.gaps sep os ++ List.replicate trail sep))) := by simp
      rw [hstr, findFirstNotOf_skip front n (Spaced.head?_word hw _) (by simp [hw.ne_nil]),
        ← List.append_assoc, tokenizeFrom_word _ hw (head?_gaps trail hos), ← List.append_assoc _ w,
        ih _ hos]
      rfl

/-- The tokens of a string are its words. -/
theorem tokenizeFrom_eq_words (sep : Char) (str : Text) :
    tokenizeFrom [sep] str (findFirstNotOf [sep] str (some 0)) = words sep str := by
  obtain ⟨n, rfl⟩ | ⟨S, rfl⟩ := blank_or_spaced sep str
  · have hblank : findFirstNotOf [sep] ([] ++ List.replicate n sep) (some 0) = none :=
      findFirstNotOf_blank [] n
    rw [List.nil_append] at hblank
    rw [hblank, tokenizeFrom, words_replicate]
  · have hskip := findFirstNotOf_skip [] S.lead (S.head?_body (List.replicate S.trail sep))
      (by simp [S.body_ne_nil])
    rw [List.nil_append, List.length_nil] at hskip
    rw [Spaced.words_text, Spaced.text, hskip, List.nil_append, Spaced.body, List.append_assoc,
      tokenizeFrom_word _ S.first_word (head?_gaps S.trail S.others_word), ← List.append_assoc,
      tokenizeFrom_gaps _ S.trail S.others_word]
    rfl

theorem tokenize_eq_words (str : Text) (tokens : List Text) (sep : Char) :
    tokenize str tokens [sep] = tokens ++ words sep str := by
  rw [tokenize, tokenizeFrom_eq_words]

end

/-- `split` returns the tokens that `tokenize` puts at the end of the vector: the words of the string. -/
theorem split_eq_tokenize (s : Text) (d : Char) (tokens : List Text) :
    tokenize s tokens [d] = tokens ++ split s d true ∧ split s d true = words d s := by
  rw [tokenize_eq_words, split_eq_words]
  exact ⟨rfl, rfl⟩

/-! ## `separateCatalogFromPath` -/

section

variable {C : Type} (findCatalog : Text → Option C)

/-- `separateCatalogFromPath`: the new path, and the catalog that the list of catalogs has under the first
token. -/
def separateCatalogFromPath (ppath : Text) : Except BesInternalError (Text × Option C) :=
  match normalizePath ppath false false ['/'] with
  | .error e => .error e
  | .ok path =>
    match tokenize path [] ['/'] with
    | [] => .ok (ppath, none)
    | token :: _ =>
      match findCatalog token with
      | none => .ok (ppath, none)
      | some catalog =>
        -- the token is taken to stand at the very beginning of the path
        match normalizePath (path.drop token.length) true false ['/'] with
        | .error e => .error e
        | .ok rest => .ok (rest, some catalog)

/-- What it is for: the components behind the name of a catalog. -/
def separated (ppath : Text) : Text × Option C :=
  match words '/' ppath with
  | [] => (ppath, none)
  | name :: rest =>
    match findCatalog name with
    | none => (ppath, none)
    | some catalog => ('/' :: ['/'].intercalate rest, some catalog)

/-- Not too many slashes: two in front, four between components, and six behind them, or ten if there is
only one. -/
def FewSlashes (ppath : Text) : Prop :=
  ¬ List.replicate 3 '/' <+: ppath ∧ ¬ List.replicate 5 '/' <:+: Spaced.inner '/' ppath ∧
    ¬ List.replicate (if (words '/' ppath).length = 1 then 11 else 7) '/' <:+ ppath

theorem fewSlashes_text (S : Spaced '/') : FewSlashes S.text ↔
    S.lead < 3 ∧ (∀ o ∈ S.others, o.1 < 5) ∧ S.trail < if S.others = [] then 11 else 7 := by
  have hlength : (words '/' S.text).length = 1 ↔ S.others = [] := by
    rw [S.words_text, Spaced.parts, List.length_cons, List.length_map]
    simp
  have hinner : ¬ List.replicate 5 '/' <:+: Spaced.inner '/' S.text ↔ ∀ o ∈ S.others, o.1 < 5 := by
    rw [S.inner_text, Spaced.not_replicate_infix_text _ (by omega)]
    exact ⟨fun h => h.2.1, fun h => ⟨Nat.succ_pos 4, h, Nat.succ_pos 4⟩⟩
  rw [FewSlashes, hinner, S.replicate_prefix_text, S.replicate_suffix_text]
  simp only [hlength, not_le]

/-- What `separateCatalogFromPath` cuts the token from. -/
def trimmed (S : Spaced '/') : Spaced '/' :=
  S.halve.withEnds (fit false S.halve.lead) (fit false S.halve.trail)

theorem separateCatalogFromPath_blank (n : Nat) :
    separateCatalogFromPath findCatalog (List.replicate n '/') = .ok (List.replicate n '/', none) := by
  obtain ⟨path, hpath, hwords⟩ := exists_normalizePath '/' (List.replicate n '/') false false
  unfold separateCatalogFromPath
  rw [hpath]
  dsimp only
  rw [tokenize_eq_words, hwords, words_replicate]
  rfl

/-- Under a catalog, as many characters are cut off the path as the name of the catalog has. -/
theorem separateCatalogFromPath_text (S : Spaced '/') :
    separateCatalogFromPath findCatalog S.text =
      match findCatalog S.first with
      | none => .ok (S.text, none)
      | some catalog =>
        (normalizePath ((trimmed S).text.drop S.first.length) true false ['/']).map
          fun rest => (rest, some catalog) := by
  have hpath : normalizePath S.text false false ['/'] = .ok (trimmed S).text :=
    normalizePath_text S false false
  have htokens : tokenize (trimmed S).text [] ['/'] = S.first :: S.others.map Prod.snd := by
    rw [tokenize_eq_words, Spaced.words_text, trimmed, Spaced.parts_withEnds, Spaced.parts_halve]
    rfl
  unfold separateCatalogFromPath
  rw [hpath]
  dsimp only
  rw [htokens]
  dsimp only
  cases findCatalog S.first with
  | none => rfl
  | some catalog =>
      dsimp only
      cases normalizePath ((trimmed S).text.drop S.first.length) true false ['/'] <;> rfl

/-- Where a slash is left in front of the token, the cut takes too little, and as many components stay as
there were. -/
theorem words_cut_of_lead {S : Spaced '/'} (h : 3 ≤ S.lead) :
    (words '/' ((trimmed S).text.drop S.first.length)).length = S.parts.length := by
  -- so many slashes are still there, and of the name as many characters stay
  obtain ⟨j, hj⟩ : ∃ j, fit false S.halve.lead = j + 1 := by
    refine ⟨(S.lead + 1) / 2 - 2, ?_⟩
    show (S.lead + 1) / 2 - 1 = _
    omega
  have hpos := List.length_pos_iff.mpr S.first_word.ne_nil
  have hword : IsWord '/' (S.first.drop (S.first.length - (j + 1))) := by
    constructor
    · rw [ne_eq, List.drop_eq_nil_iff]
      omega
    · exact fun hmem => S.first_word.free (List.mem_of_mem_drop hmem)
  let T : Spaced '/' := ⟨j + 1 - S.first.length, S.first.drop (S.first.length - (j + 1)),
    (trimmed S).others, (trimmed S).trail, hword, (trimmed S).others_word⟩
  have hcut : (trimmed S).text.drop S.first.length = T.text := by
    have hlead : (trimmed S).lead = j + 1 := hj
    have hfirst : (trimmed S).first = S.first := rfl
    rw [Spaced.text, Spaced.body, hlead, hfirst, List.drop_append, List.drop_replicate,
      List.length_replicate, List.append_assoc, List.drop_append, Spaced.text, Spaced.body,
      List.append_assoc]
    have hnone : S.first.length - (j + 1) - S.first.length = 0 := by omega
    rw [hnone, List.drop_zero]
  rw [hcut, T.words_text]
  simp [T, Spaced.parts, trimmed, Spaced.withEnds, Spaced.halve]

/-- Where none is left, it leaves what stands behind the token. -/
theorem cut_of_lead {S : Spaced '/'} (h : S.lead < 3) : (trimmed S).text.drop S.first.length =
    Spaced.gaps '/' (trimmed S).others ++ List.replicate (trimmed S).trail '/' := by
  have hlead : (trimmed S).lead = 0 := by
    show (S.lead + 1) / 2 - 1 = 0
    omega
  have hfirst : (trimmed S).first = S.first := rfl
  rw [Spaced.text, Spaced.body, hlead, hfirst, List.replicate_zero, List.nil_append,
    List.append_assoc, List.drop_left]

/-- The components joined by slashes have these words. -/
theorem words_joined {others : List (Nat × Text)} (h : ∀ o ∈ others, 0 < o.1 ∧ IsWord '/' o.2) :
    words '/' ('/' :: ['/'].intercalate (others.map Prod.snd)) = others.map Prod.snd := by
  cases others with
  | nil => rfl
  | cons o os =>
      obtain ⟨⟨-, ho⟩, hos⟩ := List.forall_mem_cons.mp h
      let U : Spaced '/' := ⟨1, o.2, os, 0, ho, hos⟩
      have hwords := U.single.words_text
      rw [U.text_single] at hwords
      rw [List.map_cons]
      refine hwords.trans ?_
      simp [U, Spaced.parts, Spaced.single]

/-- The slashes behind the only component come down to one, if they are not too many. -/
theorem normalizePath_slashes_iff (trail : Nat) :
    normalizePath (List.replicate (fit false ((trail + 1) / 2)) '/') true false ['/'] = .ok ['/'] ↔
      trail < 11 := by
  have hone : ∀ k, List.replicate k '/' = ['/'] ↔ k = 1 := by
    intro k
    constructor
    · intro h
      simpa using congrArg List.length h
    · rintro rfl
      rfl
  have hfit : fit false ((trail + 1) / 2) = (trail + 1) / 2 - 1 := rfl
  have hboth : ∀ k, fit false (fit true k) = max k 1 - 1 := fun _ => rfl
  rw [normalizePath_blank, Except.ok.injEq, hone, hfit, hboth]
  split <;> omega

/-- What stands behind the first component becomes the other components with single slashes. -/
theorem normalizePath_behind_iff (U : Spaced '/') :
    normalizePath U.text true false ['/'] = .ok ('/' :: ['/'].intercalate U.parts) ↔
      U.lead < 3 ∧ (∀ o ∈ U.others, o.1 < 3) ∧ U.trail < 3 := by
  let Q := U.halve.withEnds (fit true U.halve.lead) (fit false U.halve.trail)
  have hsingle : Q.single.text = '/' :: ['/'].intercalate U.parts := by
    rw [Spaced.text_single, Spaced.parts_withEnds, Spaced.parts_halve]
  have hlead : Q.lead = 1 ↔ U.lead < 3 := by
    show max ((U.lead + 1) / 2) 1 = 1 ↔ U.lead < 3
    omega
  have htrail : Q.trail = 0 ↔ U.trail < 3 := by
    show (U.trail + 1) / 2 - 1 = 0 ↔ U.trail < 3
    omega
  have hothers : (∀ o ∈ Q.others, o.1 = 1) ↔ ∀ o ∈ U.others, o.1 < 3 := by
    show (∀ o ∈ U.others.map fun o => ((o.1 + 1) / 2, o.2), o.1 = 1) ↔ _
    rw [List.forall_mem_map]
    apply forall₂_congr
    intro o ho
    have hpos := (U.others_word o ho).1
    show (o.1 + 1) / 2 = 1 ↔ o.1 < 3
    omega
  rw [normalizePath_text, ← hsingle, Except.ok.injEq, ← hlead, ← hothers, ← htrail]
  exact Q.text_eq_single_iff

/-- With slashes in front of the token, the path is not the right one: it has a component too many. -/
theorem normalizePath_cut_ne {S : Spaced '/'} (h : 3 ≤ S.lead) :
    normalizePath ((trimmed S).text.drop S.first.length) true false ['/'] ≠
      .ok ('/' :: ['/'].intercalate (S.others.map Prod.snd)) := by
  intro hright
  obtain ⟨path, hpath, hwords⟩ :=
    exists_normalizePath '/' ((trimmed S).text.drop S.first.length) true false
  have hlength := words_cut_of_lead h
  rw [hright] at hpath
  cases hpath
  rw [← hwords, words_joined S.others_word] at hlength
  simp [Spaced.parts] at hlength

/-- What stands behind the first component is a path with one component less. -/
theorem exists_behind {S : Spaced '/'} {o : Nat × Text} {os : List (Nat × Text)} (h : S.others = o :: os) :
    ∃ U : Spaced '/', Spaced.gaps '/' (trimmed S).others ++ List.replicate (trimmed S).trail '/' = U.text ∧
      U.parts = S.others.map Prod.snd ∧ U.lead = (o.1 + 1) / 2 ∧
      U.others = os.map (fun o => ((o.1 + 1) / 2, o.2)) ∧ U.trail = (S.trail + 1) / 2 - 1 := by
  have hmap : (trimmed S).others = ((o.1 + 1) / 2, o.2) :: os.map fun o => ((o.1 + 1) / 2, o.2) := by
    show S.others.map _ = _
    rw [h, List.map_cons]
  obtain ⟨⟨-, hword⟩, hwords⟩ := List.forall_mem_cons.mp (hmap ▸ (trimmed S).others_word)
  refine ⟨⟨(o.1 + 1) / 2, o.2, os.map fun o => ((o.1 + 1) / 2, o.2), (trimmed S).trail, hword, hwords⟩,
    ?_, ?_, rfl, rfl, rfl⟩
  · rw [hmap, Spaced.gaps_cons, List.append_assoc]
    rfl
  · simp [h, Spaced.parts, Function.comp_def]

/-- The path is the right one exactly if there are few slashes. -/
theorem normalizePath_cut_iff (S : Spaced '/') :
    normalizePath ((trimmed S).text.drop S.first.length) true false ['/'] =
        .ok ('/' :: ['/'].intercalate (S.others.map Prod.snd)) ↔ FewSlashes S.text := by
  rw [fewSlashes_text]
  obtain hlead | hlead := Nat.lt_or_ge S.lead 3
  · rw [cut_of_lead hlead]
    cases hothers : S.others with
    | nil =>
        -- only slashes are left, and they come down to one
        have hnone : (trimmed S).others = [] := by
          show S.others.map _ = []
          rw [hothers, List.map_nil]
        rw [hnone, Spaced.gaps_nil, List.nil_append, List.map_nil, List.intercalate_nil, if_pos rfl]
        refine (normalizePath_slashes_iff S.trail).trans ?_
        simp [hlead]
    | cons o os =>
        -- every run is halved for the second time
        obtain ⟨U, htext, hparts, hU, hUothers, hUtrail⟩ := exists_behind hothers
        have hgaps : (∀ g ∈ U.others, g.1 < 3) ↔ ∀ g ∈ os, g.1 < 5 := by
          rw [hUothers, List.forall_mem_map]
          apply forall₂_congr
          intro g _
          show (g.1 + 1) / 2 < 3 ↔ g.1 < 5
          omega
        rw [htext, ← hothers, ← hparts, normalizePath_behind_iff, hgaps, hU, hUtrail, hothers,
          if_neg (List.cons_ne_nil o os), List.forall_mem_cons]
        constructor
        · rintro ⟨hfirst, hrest, htrail⟩
          exact ⟨hlead, ⟨by omega, hrest⟩, by omega⟩
        · rintro ⟨-, ⟨hfirst, hrest⟩, htrail⟩
          exact ⟨by omega, hrest, by omega⟩
  · exact iff_of_false (normalizePath_cut_ne hlead) fun h => absurd h.1 (Nat.not_lt.mpr hlead)

/-- `separateCatalogFromPath` does what it is for exactly if the first component is not the name of a
catalog or there are few slashes. -/
theorem separateCatalogFromPath_iff (ppath : Text) :
    separateCatalogFromPath findCatalog ppath = .ok (separated findCatalog ppath) ↔
      (∀ name, (words '/' ppath).head? = some name → findCatalog name = none) ∨ FewSlashes ppath := by
  obtain ⟨n, rfl⟩ | ⟨S, rfl⟩ := blank_or_spaced '/' ppath
  · rw [separateCatalogFromPath_blank, separated, words_replicate]
    simp
  · rw [separateCatalogFromPath_text, separated, S.words_text, ← normalizePath_cut_iff]
    simp only [Spaced.parts, List.head?_cons, Option.some.injEq, forall_eq']
    cases hfind : findCatalog S.first with
    | none => simp
    | some catalog =>
        have hnot : ¬ some catalog = none := by simp
        rw [or_iff_right hnot]
        dsimp only
        cases normalizePath ((trimmed S).text.drop S.first.length) true false ['/'] with
        | error e => simp [Except.map]
        | ok rest => simp [Except.map]

end

/-- With three in front of it, a slash is cut off in place of the name's last character. -/
theorem separateCatalogFromPath_three :
    ¬ ∀ (findCatalog : Text → Option Nat) (ppath : Text),
      separateCatalogFromPath findCatalog ppath = .ok (separated findCatalog ppath) := by
  intro hall
  have hpath : normalizePath "///c".toList false false ['/'] = .ok "/c".toList := by
    unfold normalizePath
    dsimp only
    rw [replaceAll_double]
    rfl
  have hrest : normalizePath "c".toList true false ['/'] = .ok "/c".toList := by
    unfold normalizePath
    dsimp only
    rw [replaceAll_double]
    rfl
  have hresult : separateCatalogFromPath (fun _ => some 7) "///c".toList =
      .ok ("/c".toList, some 7) := by
    unfold separateCatalogFromPath
    rw [hpath]
    dsimp only
    rw [tokenize_eq_words]
    show (match normalizePath "c".toList true false ['/'] with | .error e => _ | .ok rest => _) = _
    rw [hrest]
  have hsame := hall (fun _ => some 7) "///c".toList
  rw [hresult] at hsame
  exact absurd (congrArg Prod.fst (Except.ok.inj hsame)) (by decide)

end Skunk.BesUtils.Paths
