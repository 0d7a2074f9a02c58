import Mathlib.Data.Char
import Mathlib.Data.List.Lex
import Skunk.BesUtils.Explode
import Skunk.Container.OrdMap

/-!
# `BESDebug`

Which debug contexts are on. The contexts stand in a map, so in the order of their names, and `all` is
one of them that stands for the rest: turning it on turns on every context there is, and a context that
is not in the map is as `all` is.

`GetOptionsString` is meant to give the options that `SetUp` would take to get to the same state. It
writes the contexts in the order of the map, and `SetUp` reads them in that order: what stands in front of
`all` is overwritten. `mirrors_iff` says when that matters.
-/

namespace Skunk.BesUtils

open Posix Container Explode

/-- Where debug messages go. -/
inductive DebugStream
  | cerr
  | log
  | file (name : Text)
  deriving DecidableEq, Repr

structure BesDebug where
  debugMap : OrdMap Text Bool
  debugStrm : Option DebugStream
  debugStrmCreated : Bool

namespace BesDebug

/-- Before anything has been set. -/
def initial : BesDebug := ⟨.empty, none, false⟩

/-- The pseudo-context. -/
def all : Text := "all".toList

def set (flagName : Text) (value : Bool) (d : BesDebug) : BesDebug :=
  let debugMap := if value ∧ flagName = all then d.debugMap.mapValues fun _ => true else d.debugMap
  { d with debugMap := debugMap.set flagName value }

def register (flagName : Text) (d : BesDebug) : BesDebug :=
  match d.debugMap.find flagName with
  | some _ => d
  | none =>
    match d.debugMap.find all with
    | none => { d with debugMap := d.debugMap.set flagName false }
    | some _ => { d with debugMap := d.debugMap.set flagName true }

def isSet (flagName : Text) (d : BesDebug) : Bool :=
  match d.debugMap.find flagName with
  | some value => value
  | none =>
    match d.debugMap.find all with
    | some value => value
    | none => false

/-- `SetStrm`, with a stream that is not null. -/
def setStrm (strm : DebugStream) (created : Bool) (d : BesDebug) : BesDebug :=
  { d with debugStrm := some strm, debugStrmCreated := created }

/-- What `SetUp` does with one of the flags. -/
def setFlag (d : BesDebug) (flagName : Text) : BesDebug :=
  if charAt flagName 0 = '-' then d.set (flagName.drop 1) false
  else d.set flagName true

/-- The loop of `SetUp`, with what is left of the values. -/
def setFlags (rest : Text) (d : BesDebug) : BesDebug :=
  match _h : findChar ',' rest 0 with
  | none => d.setFlag rest
  | some comma => setFlags (rest.drop (comma + 1)) (d.setFlag (substr rest 0 comma))
termination_by rest.length
decreasing_by
  have := findChar_bounds _h
  rw [List.length_drop]
  omega

/-- `SetUp`; `opens` tells which files can be opened for writing. -/
def setUp (opens : Text → Bool) (values : Text) (d : BesDebug) : Except BesInternalError BesDebug :=
  if values = [] then .error ⟨"Empty debug options".toList⟩
  else
    match findChar ',' values 0 with
    | none => .error ⟨"Missing comma in debug options: ".toList ++ values⟩
    | some comma =>
      let strm := substr values 0 comma
      if strm = "cerr".toList then
        .ok (setFlags (values.drop (comma + 1)) (d.setStrm .cerr false))
      else if strm = "LOG".toList then
        .ok (setFlags (values.drop (comma + 1)) (d.setStrm .log false))
      else if opens strm then
        .ok (setFlags (values.drop (comma + 1)) (d.setStrm (.file strm) true))
      else .error ⟨"Unable to open the debug file: ".toList ++ strm⟩

/-- A flag in the option string, without the comma behind it. -/
def optionText (p : Text × Bool) : Text := (if p.2 then [] else ['-']) ++ p.1

def getOptionsString (d : BesDebug) : Text :=
  if d.debugMap.entries ≠ [] then
    (d.debugMap.entries.flatMap fun p => optionText p ++ [',']).dropLast
  else []

/-! ## Flags -/

/-- The name of a context: the first character would make it an option to turn one off. -/
def IsFlag (flagName : Text) : Prop := flagName ≠ [] ∧ ',' ∉ flagName ∧ charAt flagName 0 ≠ '-'

/-- The flags of an option string, as `SetUp` finds them. -/
def flagTexts (rest : Text) : List Text :=
  match _h : findChar ',' rest 0 with
  | none => [rest]
  | some comma => substr rest 0 comma :: flagTexts (rest.drop (comma + 1))
termination_by rest.length
decreasing_by
  have := findChar_bounds _h
  rw [List.length_drop]
  omega

def flagName (flag : Text) : Text := if charAt flag 0 = '-' then flag.drop 1 else flag

theorem setFlags_eq_foldl (rest : Text) (d : BesDebug) :
    setFlags rest d = (flagTexts rest).foldl setFlag d := by
  fun_induction flagTexts rest generalizing d with
  | case1 rest hfind =>
      rw [setFlags]
      split
      · rfl
      next comma hsome => rw [hfind] at hsome; cases hsome
  | case2 rest comma hfind ih =>
      rw [setFlags]
      split
      next hnone => rw [hfind] at hnone; cases hnone
      next comma' hsome =>
        rw [hfind] at hsome
        obtain rfl := Option.some.inj hsome
        rw [List.foldl_cons]
        exact ih _

theorem flagTexts_of_notMem {a : Text} (h : ',' ∉ a) : flagTexts a = [a] := by
  rw [flagTexts]
  split
  · rfl
  next comma hfind => rw [findChar_eq_none h] at hfind; cases hfind

theorem flagTexts_append_comma {a : Text} (h : ',' ∉ a) (b : Text) :
    flagTexts (a ++ ',' :: b) = a :: flagTexts b := by
  rw [flagTexts]
  split
  next hfind => rw [findChar_append_cons h] at hfind; cases hfind
  next comma hfind =>
    rw [findChar_append_cons h] at hfind
    obtain rfl := Option.some.inj hfind
    rw [substr_zero_append, drop_append_cons]

/-- What an option turns on or off. -/
theorem setFlag_optionText {p : Text × Bool} (h : IsFlag p.1) (d : BesDebug) :
    d.setFlag (optionText p) = d.set p.1 p.2 := by
  obtain ⟨name, value⟩ := p
  obtain ⟨-, -, hdash⟩ := h
  cases value with
  | false => rfl
  | true => exact if_neg hdash

theorem notMem_optionText {p : Text × Bool} (h : IsFlag p.1) : ',' ∉ optionText p := by
  obtain ⟨name, value⟩ := p
  obtain ⟨-, hcomma, -⟩ := h
  cases value with
  | false =>
      show ',' ∉ '-' :: name
      rw [List.mem_cons, not_or]
      exact ⟨by decide, hcomma⟩
  | true => exact hcomma

/-- `SetUp` finds the flags of an option string again. -/
theorem flagTexts_options {l : List (Text × Bool)} (hne : l ≠ []) (h : ∀ p ∈ l, IsFlag p.1) :
    flagTexts (l.flatMap fun p => optionText p ++ [',']).dropLast = l.map optionText := by
  induction l with
  | nil => exact absurd rfl hne
  | cons p l ih =>
      have hp := notMem_optionText (h p List.mem_cons_self)
      rw [List.flatMap_cons]
      cases l with
      | nil =>
          rw [List.flatMap_nil, List.append_nil, List.dropLast_concat]
          exact flagTexts_of_notMem hp
      | cons q l =>
          have hrest : ((q :: l).flatMap fun p => optionText p ++ [',']) ≠ [] := by simp
          rw [List.dropLast_append_of_ne_nil hrest, List.append_assoc]
          show flagTexts (optionText p ++ ',' :: ((q :: l).flatMap fun p => optionText p ++ [',']).dropLast) = _
          rw [flagTexts_append_comma hp, ih (by simp) fun r hr => h r (List.mem_cons_of_mem p hr)]
          rfl

/-! ## What is set -/

/-- After `Set` the flag has the value, and with `all` every flag that there was is set. -/
theorem find_set (flagName : Text) (value : Bool) (d : BesDebug) (n : Text) :
    (d.set flagName value).debugMap.find n =
      if n = flagName then some value
      else if value = true ∧ flagName = all then (d.debugMap.find n).map fun _ => true
      else d.debugMap.find n := by
  show OrdMap.find (OrdMap.set _ _ _) n = _
  rw [OrdMap.find_set]
  by_cases hn : n = flagName
  · rw [if_pos hn, if_pos hn]
  · rw [if_neg hn, if_neg hn]
    split
    · rw [OrdMap.find_mapValues]
    · rfl

/-- What is left when the entries of a map are set again in their order: `all` overwrites what stands in
front of it. -/
theorem find_replay {l : List (Text × Bool)} (hsorted : l.Pairwise fun x y => x.1 < y.1)
    {d : BesDebug} (hd : ∀ n, d.debugMap.find n = none) (n : Text) (value : Bool) :
    (l.foldl (fun d p => d.set p.1 p.2) d).debugMap.find n = some value ↔
      ∃ old, (n, old) ∈ l ∧ value = (old || decide ((all, true) ∈ l ∧ n < all)) := by
  induction l using List.reverseRecOn generalizing n value with
  | nil => simp [hd]
  | append_singleton l p ih =>
      rw [List.pairwise_append] at hsorted
      obtain ⟨hfront, -, hlt⟩ := hsorted
      have hlast : ∀ q ∈ l, q.1 < p.1 := fun q hq => hlt q hq p (List.mem_singleton.mpr rfl)
      have hih := fun v => ih hfront n v
      rw [List.foldl_append, List.foldl_cons, List.foldl_nil, find_set]
      simp only [List.mem_append, List.mem_singleton]
      by_cases hn : n = p.1
      · -- the last entry is set last, and `all` is not behind it
        rw [if_pos hn]
        have hlater : ¬ (((all, true) ∈ l ∨ (all, true) = p) ∧ n < all) := by
          rintro ⟨hall | rfl, hlt'⟩
          · rw [hn] at hlt'
            exact lt_asymm (hlast _ hall) hlt'
          · exact ne_of_lt hlt' hn
        rw [decide_eq_false hlater]
        constructor
        · intro hvalue
          refine ⟨p.2, .inr (Prod.ext hn rfl), ?_⟩
          rw [Bool.or_false]
          exact (Option.some.inj hvalue).symm
        · rintro ⟨old, hold | rfl, rfl⟩
          · exact absurd hn (ne_of_lt (hlast _ hold))
          · rw [Bool.or_false]
      · rw [if_neg hn]
        have hmem : ∀ old, ((n, old) ∈ l ∨ (n, old) = p) ↔ (n, old) ∈ l := by
          intro old
          refine ⟨?_, .inl⟩
          rintro (hold | rfl)
          · exact hold
          · exact absurd rfl hn
        simp only [hmem]
        by_cases hall : p.2 = true ∧ p.1 = all
        · -- everything in front of `all` is turned on
          rw [if_pos hall]
          have hp : (all, true) = p := Prod.ext hall.2.symm hall.1.symm
          have hdec : ∀ old, (n, old) ∈ l →
              decide (((all, true) ∈ l ∨ (all, true) = p) ∧ n < all) = true := by
            intro old hold
            apply decide_eq_true
            refine ⟨.inr hp, ?_⟩
            rw [← hall.2]
            exact hlast _ hold
          constructor
          · intro hvalue
            obtain ⟨v, hv, rfl⟩ := Option.map_eq_some_iff.mp hvalue
            obtain ⟨old, hold, -⟩ := (hih v).mp hv
            exact ⟨old, hold, by rw [hdec old hold, Bool.or_true]⟩
          · rintro ⟨old, hold, rfl⟩
            rw [hdec old hold, Bool.or_true]
            have hv := (hih _).mpr ⟨old, hold, rfl⟩
            rw [hv]
            rfl
        · rw [if_neg hall, hih]
          have hother : ((all, true) ∈ l ∨ (all, true) = p) ↔ (all, true) ∈ l := by
            refine ⟨?_, .inl⟩
            rintro (hold | rfl)
            · exact hold
            · exact absurd ⟨rfl, rfl⟩ hall
          simp only [hother]

/-! ## What can be reached -/

/-- The ways to change the map; the files that can be opened may be others at each `SetUp`. -/
inductive Op
  | set (flagName : Text) (value : Bool)
  | register (flagName : Text)
  | setUp (opens : Text → Bool) (values : Text)

/-- One change; `SetUp` throws before it changes anything. -/
def step (d : BesDebug) : Op → BesDebug
  | .set flagName value => d.set flagName value
  | .register flagName => d.register flagName
  | .setUp opens values =>
    match d.setUp opens values with
    | .ok d' => d'
    | .error _ => d

/-- The names in a change are names of contexts. -/
def Op.Named : Op → Prop
  | .set flagName _ | .register flagName => IsFlag flagName
  | .setUp _ values =>
    ∀ comma, findChar ',' values 0 = some comma →
      ∀ flag ∈ flagTexts (values.drop (comma + 1)), IsFlag (flagName flag)

/-- All names in the map are names of contexts. -/
def Named (d : BesDebug) : Prop := ∀ n value, d.debugMap.find n = some value → IsFlag n

theorem Named.set {d : BesDebug} (h : d.Named) {flagName : Text} (hflag : IsFlag flagName)
    (value : Bool) : (d.set flagName value).Named := by
  intro n v hn
  rw [find_set] at hn
  split at hn
  next heq => rw [heq]; exact hflag
  · split at hn
    · obtain ⟨old, hold, -⟩ := Option.map_eq_some_iff.mp hn
      exact h n old hold
    · exact h n v hn

theorem Named.setFlags {d : BesDebug} (h : d.Named) {rest : Text}
    (hrest : ∀ flag ∈ flagTexts rest, IsFlag (flagName flag)) : (BesDebug.setFlags rest d).Named := by
  rw [setFlags_eq_foldl]
  refine List.foldlRecOn (motive := Named) (flagTexts rest) setFlag h ?_
  intro d' hd' flag hflag
  have hname := hrest flag hflag
  unfold setFlag
  unfold flagName at hname
  split
  next hdash =>
    rw [if_pos hdash] at hname
    exact hd'.set hname false
  next hdash =>
    rw [if_neg hdash] at hname
    exact hd'.set hname true

theorem Named.step {d : BesDebug} (h : d.Named) {op : Op} (hop : op.Named) : (d.step op).Named := by
  cases op with
  | set flagName value => exact h.set hop value
  | register flagName =>
      show (d.register flagName).Named
      have hset : ∀ value, Named { d with debugMap := d.debugMap.set flagName value } := by
        intro value n v hn
        rw [OrdMap.find_set] at hn
        split at hn
        next heq => rw [heq]; exact hop
        · exact h n v hn
      unfold register
      split
      · exact h
      · split
        · exact hset false
        · exact hset true
  | setUp opens values =>
      -- wherever the output goes, the flags behind the comma are set
      have hset : ∀ comma, findChar ',' values 0 = some comma → ∀ strm created,
          (BesDebug.setFlags (values.drop (comma + 1)) (d.setStrm strm created)).Named := by
        intro comma hcomma strm created
        exact Named.setFlags (d := d.setStrm strm created) h (hop comma hcomma)
      unfold BesDebug.step
      dsimp only
      unfold setUp
      split
      next d' hok =>
        split at hok
        · cases hok
        · split at hok
          · cases hok
          next comma hcomma =>
            dsimp only at hok
            split at hok
            · obtain rfl := Except.ok.inj hok
              exact hset comma hcomma _ _
            · split at hok
              · obtain rfl := Except.ok.inj hok
                exact hset comma hcomma _ _
              · split at hok
                · obtain rfl := Except.ok.inj hok
                  exact hset comma hcomma _ _
                · cases hok
      · exact h

theorem named_run {ops : List Op} (h : ∀ op ∈ ops, op.Named) : (ops.foldl step initial).Named := by
  refine List.foldlRecOn (motive := Named) ops step ?_ ?_
  · intro n value hn
    cases hn
  · exact fun d hd op hop => hd.step (h op hop)

/-! ## The option string -/

/-- A stream that `SetUp` takes. -/
def IsStream (opens : Text → Bool) (strm : Text) : Prop :=
  ',' ∉ strm ∧ (strm = "cerr".toList ∨ strm = "LOG".toList ∨ opens strm = true)

theorem setUp_append {opens : Text → Bool} {strm : Text} (hstrm : IsStream opens strm) (rest : Text)
    (d : BesDebug) :
    ∃ s created, d.setUp opens (strm ++ ',' :: rest) = .ok (setFlags rest (d.setStrm s created)) := by
  obtain ⟨hcomma, hstrm⟩ := hstrm
  unfold setUp
  rw [if_neg (by simp), findChar_append_cons hcomma]
  simp only [substr_zero_append, drop_append_cons]
  by_cases hcerr : strm = "cerr".toList
  · exact ⟨_, _, if_pos hcerr⟩
  · rw [if_neg hcerr]
    by_cases hlog : strm = "LOG".toList
    · exact ⟨_, _, if_pos hlog⟩
    · rw [if_neg hlog]
      have hopens : opens strm = true := (hstrm.resolve_left hcerr).resolve_left hlog
      exact ⟨_, _, if_pos hopens⟩

/-- To set up from an option string is to set the contexts again in the order of the map. -/
theorem setFlags_getOptionsString {d : BesDebug} (h : d.Named) (hne : d.debugMap.entries ≠ [])
    (d₀ : BesDebug) :
    setFlags d.getOptionsString d₀ = d.debugMap.entries.foldl (fun d p => d.set p.1 p.2) d₀ := by
  have hflags : ∀ p ∈ d.debugMap.entries, IsFlag p.1 :=
    fun p hp => h p.1 p.2 (OrdMap.find_iff.mpr hp)
  rw [setFlags_eq_foldl, getOptionsString, if_pos hne, flagTexts_options hne hflags, List.foldl_map]
  refine List.foldl_ext _ _ _ ?_
  intro d' p hp
  exact setFlag_optionText (hflags p hp) d'

/-- The replay turns on what stands in front of an `all` that is on. -/
theorem find_setFlags {d : BesDebug} (h : d.Named) (hne : d.debugMap.entries ≠ []) {d₀ : BesDebug}
    (hd₀ : ∀ n, d₀.debugMap.find n = none) (n : Text) :
    (setFlags d.getOptionsString d₀).debugMap.find n =
      (d.debugMap.find n).map fun old =>
        old || decide (d.debugMap.find all = some true ∧ n < all) := by
  apply Option.ext
  intro value
  rw [setFlags_getOptionsString h hne, find_replay d.debugMap.sorted hd₀, Option.map_eq_some_iff]
  simp only [← OrdMap.find_iff]
  constructor
  · rintro ⟨old, hold, rfl⟩
    exact ⟨old, hold, rfl⟩
  · rintro ⟨old, hold, rfl⟩
    exact ⟨old, hold, rfl⟩

/-- The replay changes a context that is off, when `all` is on and stands behind it. -/
theorem isSet_setFlags {d : BesDebug} (h : d.Named) (hne : d.debugMap.entries ≠ []) {d₀ : BesDebug}
    (hd₀ : ∀ n, d₀.debugMap.find n = none) (n : Text) :
    isSet n (setFlags d.getOptionsString d₀) = isSet n d ↔
      ¬ (d.debugMap.find all = some true ∧ n < all ∧ d.debugMap.find n = some false) := by
  unfold isSet
  rw [find_setFlags h hne hd₀, find_setFlags h hne hd₀]
  cases hn : d.debugMap.find n with
  | none =>
      cases hall : d.debugMap.find all with
      | none => simp
      | some value => simp
  | some value => cases value <;> simp

/-- The options that `GetOptionsString` writes get to the same state, unless `all` is on and a context
that sorts before it is off. -/
theorem mirrors_iff {ops : List Op} (hops : ∀ op ∈ ops, op.Named) {d : BesDebug}
    (hd : ops.foldl step initial = d) (hne : d.debugMap.entries ≠ []) {opens : Text → Bool} {strm : Text}
    (hstrm : IsStream opens strm) {d₀ : BesDebug} (hd₀ : d₀.debugMap = .empty) :
    (∃ d', d₀.setUp opens (strm ++ ',' :: d.getOptionsString) = .ok d' ∧
      ∀ n, isSet n d' = isSet n d) ↔
    ¬ (d.debugMap.find all = some true ∧ ∃ n, n < all ∧ d.debugMap.find n = some false) := by
  have hnamed : d.Named := by
    rw [← hd]
    exact named_run hops
  obtain ⟨s, created, hsetUp⟩ := setUp_append hstrm d.getOptionsString d₀
  have hempty : ∀ n, (d₀.setStrm s created).debugMap.find n = none := by
    intro n
    show d₀.debugMap.find n = none
    rw [hd₀, OrdMap.find_empty]
  have hisSet := isSet_setFlags hnamed hne hempty
  rw [hsetUp]
  constructor
  · rintro ⟨d', hd', hmirror⟩ ⟨hall, n, hlt, hoff⟩
    obtain rfl := Except.ok.inj hd'
    exact (hisSet n).mp (hmirror n) ⟨hall, hlt, hoff⟩
  · intro hno
    refine ⟨_, rfl, ?_⟩
    intro n
    rw [hisSet]
    rintro ⟨hall, hlt, hoff⟩
    exact hno ⟨hall, n, hlt, hoff⟩

theorem named_pair {a b : Op} (ha : a.Named) (hb : b.Named) : ∀ op ∈ [a, b], op.Named := by
  simp [ha, hb]

/-- A context in lower case that sorts behind `all` keeps its place. -/
theorem mirrors_bes :
    (∃ d', initial.setUp (fun _ => false) ("cerr,all,-bes".toList) = .ok d' ∧
      ∀ n, isSet n d' = isSet n ([Op.set all true, .set "bes".toList false].foldl step initial)) ↔
    ¬ (([Op.set all true, .set "bes".toList false].foldl step initial).debugMap.find all = some true ∧
      ∃ n, n < all ∧
        ([Op.set all true, .set "bes".toList false].foldl step initial).debugMap.find n = some false) := by
  have hops : ∀ op ∈ [Op.set all true, Op.set "bes".toList false], op.Named := by
    apply named_pair
    · exact ⟨by decide, by decide, by decide⟩
    · exact ⟨by decide, by decide, by decide⟩
  have hstrm : IsStream (fun _ => false) "cerr".toList := ⟨by decide, .inl rfl⟩
  have hempty : initial.debugMap = .empty := rfl
  exact mirrors_iff hops rfl (by decide) hstrm hempty

/-- `BES` sorts before `all`: with `all` on and `BES` off the option string is `-BES,all`, and that turns
`BES` on again. -/
theorem not_mirrors :
    ¬ ∀ (ops : List Op), (∀ op ∈ ops, op.Named) →
      ∀ d, ops.foldl step initial = d → d.debugMap.entries ≠ [] →
      ∀ opens strm, IsStream opens strm → ∀ d₀ : BesDebug, d₀.debugMap = .empty →
      ∃ d', d₀.setUp opens (strm ++ ',' :: d.getOptionsString) = .ok d' ∧ ∀ n, isSet n d' = isSet n d := by
  intro h
  have hops : ∀ op ∈ [Op.set all true, Op.set "BES".toList false], op.Named := by
    apply named_pair
    · exact ⟨by decide, by decide, by decide⟩
    · exact ⟨by decide, by decide, by decide⟩
  obtain ⟨d', hd', hmirror⟩ := h _ hops _ rfl (by decide) (fun _ => false) "cerr".toList
    ⟨by decide, .inl rfl⟩ initial rfl
  obtain rfl := Except.ok.inj hd'
  have hempty : ∀ n, (initial.setStrm .cerr false).debugMap.find n = none := fun _ => rfl
  have hchanged := (isSet_setFlags (named_run hops) (by decide) hempty "BES".toList).mp
    (hmirror "BES".toList)
  exact hchanged ⟨by decide, by decide, by decide⟩

end BesDebug

end Skunk.BesUtils
