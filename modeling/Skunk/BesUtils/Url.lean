import Skunk.BesUtils.Explode
import Skunk.Text.Search

/-!
# `BESUtil::url_explode` and `BESUtil::url_create`

A URL has six parts, of which the user name with its password, the port and the path may be missing.
`url_explode` cuts it at the first colon, the first `@` and the first slash of what is left at each
step; the separators may stand in later parts as well. `urlExplode_urlCreate` says which parts come back
from the URL that is made of them.
-/

namespace Skunk.BesUtils

open Posix Text Explode

structure Url where
  protocol : Text
  domain : Text
  uname : Text
  psswd : Text
  port : Text
  path : Text
  deriving DecidableEq, Repr

namespace Url

/-- A `url` that nothing has been assigned to. -/
def empty : Url := ⟨[], [], [], [], [], []⟩

/-- The part of `url_explode` that looks for a user name; it leaves the rest behind the `@`. -/
def explodeUser (rest : Text) (urlParts : Url) : Text × Url :=
  let slash := (findChar '/' rest 0).getD rest.length
  match findChar '@' rest 0 with
  | none => (rest, urlParts)
  | some at_ =>
    if at_ < slash then
      -- everything before the @ is username:password
      let up := substr rest 0 at_
      match findChar ':' up 0 with
      | some colon =>
        (rest.drop (at_ + 1), { urlParts with uname := substr up 0 colon, psswd := up.drop (colon + 1) })
      | none => (rest.drop (at_ + 1), { urlParts with uname := up })
    else (rest, urlParts)

/-- The part of `url_explode` behind that: `domain:port/path`. -/
def explodeHost (rest : Text) (urlParts : Url) : Url :=
  let slash := (findChar '/' rest 0).getD rest.length
  let noPort : Url :=
    match findChar '/' rest 0 with
    | some slash => { urlParts with domain := substr rest 0 slash, path := rest.drop (slash + 1) }
    | none => { urlParts with domain := rest }
  match findChar ':' rest 0 with
  | none => noPort
  | some colon =>
    if colon < slash then
      let urlParts := { urlParts with domain := substr rest 0 colon }
      let rest := rest.drop (colon + 1)
      match findChar '/' rest 0 with
      | some slash => { urlParts with port := substr rest 0 slash, path := rest.drop (slash + 1) }
      | none => { urlParts with port := rest, path := [] }
    else noPort

/-- `url_explode`; parts that the URL does not have stay as they are. -/
def urlExplode (urlStr : Text) (urlParts : Url) : Except BesInternalError Url :=
  match findChar ':' urlStr 0 with
  | none => .error ⟨"BESUtil::url_explode: missing colon for protocol".toList⟩
  | some colon =>
    let urlParts := { urlParts with protocol := substr urlStr 0 colon }
    if substr urlStr colon 3 ≠ "://".toList then
      .error ⟨"BESUtil::url_explode: no :// in the URL".toList⟩
    else
      let (rest, urlParts) := explodeUser (urlStr.drop (colon + 3)) urlParts
      .ok (explodeHost rest urlParts)

/-- The user name and the password in a URL. -/
def userText (urlParts : Url) : Text :=
  if urlParts.uname ≠ [] then
    urlParts.uname ++ (if urlParts.psswd ≠ [] then ':' :: urlParts.psswd else []) ++ ['@']
  else []

def portText (urlParts : Url) : Text := if urlParts.port ≠ [] then ':' :: urlParts.port else []

def pathText (urlParts : Url) : Text := if urlParts.path ≠ [] then '/' :: urlParts.path else []

def urlCreate (urlParts : Url) : Text :=
  urlParts.protocol ++ "://".toList ++ userText urlParts ++ urlParts.domain ++ portText urlParts ++
    pathText urlParts

/-! ## The way back -/

/-- Parts that can be told from each other in a URL. -/
structure Separable (urlParts : Url) : Prop where
  protocol : ':' ∉ urlParts.protocol
  uname : ':' ∉ urlParts.uname ∧ '@' ∉ urlParts.uname ∧ '/' ∉ urlParts.uname
  psswd : '@' ∉ urlParts.psswd ∧ '/' ∉ urlParts.psswd
  psswd_nil : urlParts.uname = [] → urlParts.psswd = []
  domain : ':' ∉ urlParts.domain ∧ '@' ∉ urlParts.domain ∧ '/' ∉ urlParts.domain
  port : '@' ∉ urlParts.port ∧ '/' ∉ urlParts.port

section Steps

variable {front rest path : Text} {urlParts : Url}

/-- The first slash is the one in front of the path, or there is none. -/
theorem slash_of_path (h : '/' ∉ front) (path : Text) :
    (findChar '/' (front ++ if path ≠ [] then '/' :: path else []) 0).getD
      (front ++ if path ≠ [] then '/' :: path else []).length = front.length := by
  by_cases hpath : path = []
  · rw [if_neg (not_not_intro hpath), List.append_nil, findChar_eq_none h]
    rfl
  · rw [if_pos hpath, findChar_append_cons h]
    rfl

/-- Without a user name, an `@` can only stand in the path. -/
theorem explodeUser_of_notMem (hat : '@' ∉ front) (hslash : '/' ∉ front) (path : Text)
    (urlParts : Url) :
    explodeUser (front ++ if path ≠ [] then '/' :: path else []) urlParts =
      (front ++ if path ≠ [] then '/' :: path else [], urlParts) := by
  have hslash' := slash_of_path hslash path
  unfold explodeUser
  cases hfind : findChar '@' (front ++ if path ≠ [] then '/' :: path else []) 0 with
  | none => rfl
  | some at_ =>
      have hle := le_of_findChar_append hat hfind
      show (if at_ < _ then _ else _) = _
      rw [hslash', if_neg (by omega)]

/-- The `@` behind a user name and a password is the first, and no slash is in front of it. -/
theorem explodeUser_append (hat : '@' ∉ front) (hslash : '/' ∉ front) (rest : Text) (urlParts : Url) :
    explodeUser (front ++ '@' :: rest) urlParts =
      (rest, match findChar ':' front 0 with
        | some colon =>
          { urlParts with uname := substr front 0 colon, psswd := front.drop (colon + 1) }
        | none => { urlParts with uname := front }) := by
  have hfront : '/' ∉ front ++ ['@'] := by
    rw [List.mem_append, not_or]
    exact ⟨hslash, by decide⟩
  have hsplit : front ++ '@' :: rest = (front ++ ['@']) ++ rest := by simp
  have hlt : front.length < (findChar '/' (front ++ '@' :: rest) 0).getD
      (front ++ '@' :: rest).length := by
    cases hfind : findChar '/' (front ++ '@' :: rest) 0 with
    | none =>
        show front.length < (front ++ '@' :: rest).length
        rw [List.length_append, List.length_cons]
        omega
    | some slash =>
        rw [hsplit] at hfind
        have hle := le_of_findChar_append hfront hfind
        rw [List.length_append, List.length_singleton] at hle
        exact hle
  unfold explodeUser
  rw [findChar_append_cons hat]
  show (if _ < _ then _ else _) = _
  rw [if_pos hlt, substr_zero_append, drop_append_cons]
  dsimp only
  cases findChar ':' front 0 with
  | none => rfl
  | some colon => rfl

/-- What is behind the user name gives the domain, the port and the path. -/
theorem explodeHost_append (hdomain : ':' ∉ front) (hslash : '/' ∉ front) {port : Text}
    (hport : '/' ∉ port) (path : Text) (hurl : urlParts.port = [] ∧ urlParts.path = []) :
    explodeHost (front ++ (if port ≠ [] then ':' :: port else []) ++
        if path ≠ [] then '/' :: path else []) urlParts =
      { urlParts with domain := front, port := port, path := path } := by
  obtain ⟨protocol, domain, uname, psswd, oldPort, oldPath⟩ := urlParts
  obtain ⟨rfl, rfl⟩ : oldPort = [] ∧ oldPath = [] := hurl
  by_cases hnil : port = []
  · -- a colon can only stand in the path, behind the slash
    subst hnil
    rw [if_neg (not_not_intro rfl), List.append_nil]
    have hslash' := slash_of_path hslash path
    unfold explodeHost
    rw [hslash']
    dsimp only
    have hpath : (match findChar '/' (front ++ if path ≠ [] then '/' :: path else []) 0 with
        | some slash => (⟨protocol, substr (front ++ if path ≠ [] then '/' :: path else []) 0 slash, uname,
            psswd, [], (front ++ if path ≠ [] then '/' :: path else []).drop (slash + 1)⟩ : Url)
        | none => ⟨protocol, front ++ if path ≠ [] then '/' :: path else [], uname, psswd, [], []⟩) =
        ⟨protocol, front, uname, psswd, [], path⟩ := by
      by_cases hpath : path = []
      · subst hpath
        rw [if_neg (not_not_intro rfl), List.append_nil, findChar_eq_none hslash]
      · rw [if_pos hpath, findChar_append_cons hslash]
        dsimp only
        rw [substr_zero_append, drop_append_cons]
    cases hfind : findChar ':' (front ++ if path ≠ [] then '/' :: path else []) 0 with
    | none => exact hpath
    | some colon =>
        have hle := le_of_findChar_append hdomain hfind
        dsimp only
        rw [if_neg (by omega)]
        exact hpath
  · rw [if_pos hnil]
    have hsplit : front ++ ':' :: port ++ (if path ≠ [] then '/' :: path else []) =
        front ++ ':' :: (port ++ if path ≠ [] then '/' :: path else []) := by simp
    have hfront : '/' ∉ front ++ ':' :: port := by
      rw [List.mem_append, List.mem_cons, not_or, not_or]
      exact ⟨hslash, by decide, hport⟩
    have hslash' := slash_of_path hfront path
    have hlt : front.length < (front ++ ':' :: port).length := by
      rw [List.length_append, List.length_cons]
      omega
    unfold explodeHost
    rw [hslash', hsplit, findChar_append_cons hdomain]
    dsimp only
    rw [if_pos hlt, substr_zero_append, drop_append_cons]
    by_cases hpath : path = []
    · subst hpath
      rw [if_neg (not_not_intro rfl), List.append_nil, findChar_eq_none hport]
    · rw [if_pos hpath, findChar_append_cons hport]
      dsimp only
      rw [substr_zero_append, drop_append_cons]

end Steps

/-- What stands behind the protocol gives the other parts. -/
theorem explodeHost_explodeUser {urlParts : Url} (h : Separable urlParts) :
    explodeHost
        (explodeUser (userText urlParts ++ (urlParts.domain ++ portText urlParts ++ pathText urlParts))
          ⟨urlParts.protocol, [], [], [], [], []⟩).1
        (explodeUser (userText urlParts ++ (urlParts.domain ++ portText urlParts ++ pathText urlParts))
          ⟨urlParts.protocol, [], [], [], [], []⟩).2 = urlParts := by
  obtain ⟨protocol, domain, uname, psswd, port, path⟩ := urlParts
  obtain ⟨-, ⟨hcolon, hat, hslash⟩, ⟨hat', hslash'⟩, hnil, ⟨hdcolon, hdat, hdslash⟩, hpat, hpslash⟩ := h
  by_cases huname : uname = []
  · obtain rfl : psswd = [] := hnil huname
    subst huname
    have hfrontAt : '@' ∉ domain ++ (if port ≠ [] then ':' :: port else []) := by
      split <;> simp_all
    have hfrontSlash : '/' ∉ domain ++ (if port ≠ [] then ':' :: port else []) := by
      split <;> simp_all
    show explodeHost (explodeUser (domain ++ _ ++ _) _).1 (explodeUser (domain ++ _ ++ _) _).2 = _
    rw [portText, pathText, explodeUser_of_notMem hfrontAt hfrontSlash]
    exact explodeHost_append hdcolon hdslash hpslash path ⟨rfl, rfl⟩
  · have hfrontAt : '@' ∉ uname ++ (if psswd ≠ [] then ':' :: psswd else []) := by
      split <;> simp_all
    have hfrontSlash : '/' ∉ uname ++ (if psswd ≠ [] then ':' :: psswd else []) := by
      split <;> simp_all
    have hsplit : userText ⟨protocol, domain, uname, psswd, port, path⟩ ++
        (domain ++ portText ⟨protocol, domain, uname, psswd, port, path⟩ ++
          pathText ⟨protocol, domain, uname, psswd, port, path⟩) =
        (uname ++ if psswd ≠ [] then ':' :: psswd else []) ++ '@' ::
          (domain ++ (if port ≠ [] then ':' :: port else []) ++ if path ≠ [] then '/' :: path else []) := by
      rw [userText, if_pos huname, List.append_assoc, portText, pathText]
      rfl
    -- the colon in front of the password is the first one
    have huser : (match findChar ':' (uname ++ if psswd ≠ [] then ':' :: psswd else []) 0 with
        | some colon => (⟨protocol, [], substr (uname ++ if psswd ≠ [] then ':' :: psswd else []) 0 colon,
            (uname ++ if psswd ≠ [] then ':' :: psswd else []).drop (colon + 1), [], []⟩ : Url)
        | none => ⟨protocol, [], uname ++ if psswd ≠ [] then ':' :: psswd else [], [], [], []⟩) =
        ⟨protocol, [], uname, psswd, [], []⟩ := by
      by_cases hpsswd : psswd = []
      · subst hpsswd
        rw [if_neg (not_not_intro rfl), List.append_nil, findChar_eq_none hcolon]
      · rw [if_pos hpsswd, findChar_append_cons hcolon]
        dsimp only
        rw [substr_zero_append, drop_append_cons]
    show explodeHost (explodeUser (userText _ ++ (domain ++ portText _ ++ pathText _)) _).1
      (explodeUser (userText _ ++ (domain ++ portText _ ++ pathText _)) _).2 = _
    rw [hsplit, explodeUser_append hfrontAt hfrontSlash]
    dsimp only
    rw [huser]
    exact explodeHost_append hdcolon hdslash hpslash path ⟨rfl, rfl⟩

/-- The parts of a URL that is made of them come back. -/
theorem urlExplode_urlCreate {urlParts : Url} (h : Separable urlParts) :
    urlExplode (urlCreate urlParts) empty = .ok urlParts := by
  have hsplit : urlCreate urlParts = urlParts.protocol ++ ':' :: ('/' :: '/' ::
      (userText urlParts ++ (urlParts.domain ++ portText urlParts ++ pathText urlParts))) := by
    simp [urlCreate]
  have hseparator : substr (urlCreate urlParts) urlParts.protocol.length 3 = "://".toList := by
    rw [hsplit, substr, List.drop_left]
    rfl
  have hrest : (urlCreate urlParts).drop (urlParts.protocol.length + 3) =
      userText urlParts ++ (urlParts.domain ++ portText urlParts ++ pathText urlParts) := by
    rw [hsplit, ← List.drop_drop, List.drop_left]
    rfl
  have hcolon : findChar ':' (urlCreate urlParts) 0 = some urlParts.protocol.length := by
    rw [hsplit, findChar_append_cons h.protocol]
  have hprotocol : substr (urlCreate urlParts) 0 urlParts.protocol.length = urlParts.protocol := by
    rw [hsplit, substr_zero_append]
  unfold urlExplode
  rw [hcolon]
  dsimp only
  rw [if_neg (not_not_intro hseparator), hrest, hprotocol]
  exact congrArg Except.ok (explodeHost_explodeUser h)

/-- A URL with all six parts, and separators in the password and in the path. -/
theorem urlExplode_urlCreate_all :
    urlCreate ⟨"http".toList, "host".toList, "me".toList, "a:b".toList, "80".toList, "x@y:z/".toList⟩ =
      "http://me:a:b@host:80/x@y:z/".toList ∧
    urlExplode "http://me:a:b@host:80/x@y:z/".toList empty =
      .ok ⟨"http".toList, "host".toList, "me".toList, "a:b".toList, "80".toList, "x@y:z/".toList⟩ := by
  have hparts : Separable ⟨"http".toList, "host".toList, "me".toList, "a:b".toList, "80".toList,
      "x@y:z/".toList⟩ := by
    constructor <;> decide
  exact ⟨rfl, urlExplode_urlCreate hparts⟩

/-! ## What is left of an earlier URL

A part that the URL does not have is not assigned to. Which parts those are can be seen in the URL. -/

/-- What stands behind `://`, if the first colon begins it. -/
def behindProtocol (urlStr : Text) : Option Text :=
  match findChar ':' urlStr 0 with
  | none => none
  | some colon => if substr urlStr colon 3 = "://".toList then some (urlStr.drop (colon + 3)) else none

/-- What stands in front of the first slash. -/
def authority (rest : Text) : Text := rest.takeWhile (· ≠ '/')

def HasUser (rest : Text) : Prop := '@' ∈ authority rest

instance (rest : Text) : Decidable (HasUser rest) := inferInstanceAs (Decidable (_ ∈ _))

def HasPassword (rest : Text) : Prop := HasUser rest ∧ ':' ∈ rest.takeWhile (· ≠ '@')

instance (rest : Text) : Decidable (HasPassword rest) := inferInstanceAs (Decidable (_ ∧ _))

def behindUser (rest : Text) : Text := if HasUser rest then (rest.dropWhile (· ≠ '@')).drop 1 else rest

def HasPort (rest : Text) : Prop := ':' ∈ authority rest

instance (rest : Text) : Decidable (HasPort rest) := inferInstanceAs (Decidable (_ ∈ _))

/-- There is a path. With a port there is always one, and be it empty. -/
def HasPath (rest : Text) : Prop := HasPort rest ∨ '/' ∈ rest

instance (rest : Text) : Decidable (HasPath rest) := inferInstanceAs (Decidable (_ ∨ _))

theorem findChar_zero_iff {c : Char} {rest : Text} : (∃ i, findChar c rest 0 = some i) ↔ c ∈ rest := by
  obtain ⟨hnot, -⟩ | ⟨front, behind, rfl, hfree, -, -⟩ := split_at_first c rest
  · rw [findChar_eq_none hnot]
    simp [hnot]
  · rw [findChar_append_cons hfree]
    simp

/-- The test that the code makes: something is in front of the first slash. -/
theorem lt_slash_iff (c : Char) (rest : Text) :
    (∃ i, findChar c rest 0 = some i ∧ i < (findChar '/' rest 0).getD rest.length) ↔
      c ∈ authority rest := by
  obtain ⟨hnot, hall⟩ | ⟨front, behind, rfl, hfree, hfront, -⟩ := split_at_first '/' rest
  · rw [authority, hall, findChar_eq_none hnot, ← findChar_zero_iff]
    constructor
    · rintro ⟨i, hi, -⟩
      exact ⟨i, hi⟩
    · rintro ⟨i, hi⟩
      exact ⟨i, hi, (findChar_bounds hi).2⟩
  · rw [authority, hfront, findChar_append_cons hfree]
    show (∃ i, _ ∧ i < front.length) ↔ _
    obtain ⟨hnot, -⟩ | ⟨before, after, rfl, hbefore, -, -⟩ := split_at_first c front
    · refine iff_of_false ?_ hnot
      rintro ⟨i, hi, hlt⟩
      have hle := le_of_findChar_append hnot hi
      omega
    · refine iff_of_true ⟨before.length, ?_, ?_⟩ (by simp)
      · rw [List.append_assoc]
        exact findChar_append_cons hbefore _
      · simp

/-- `explodeUser` assigns the user name and the password that the URL has. -/
theorem explodeUser_eq (rest : Text) : ∃ uname psswd, ∀ urlParts : Url, explodeUser rest urlParts =
    (behindUser rest, { urlParts with
      uname := if HasUser rest then uname else urlParts.uname
      psswd := if HasPassword rest then psswd else urlParts.psswd }) := by
  by_cases huser : HasUser rest
  · obtain ⟨hnot, -⟩ | ⟨up, behind, rfl, hat, hup, hbehind⟩ := split_at_first '@' rest
    · exact absurd ((rest.takeWhile_prefix _).subset huser) hnot
    -- with a slash in front of it the sign would not be one of the authority
    have hslash : '/' ∉ up := by
      intro hmem
      obtain ⟨hnot, -⟩ | ⟨before, after, rfl, hbefore, -, -⟩ := split_at_first '/' up
      · exact hnot hmem
      · apply hat
        rw [HasUser, authority, List.append_assoc, List.takeWhile_append_of_pos] at huser
        · apply List.mem_append_left
          simpa using huser
        · intro c hc
          simpa using ne_of_mem_of_not_mem hc hbefore
    have hrest : behindUser (up ++ '@' :: behind) = behind := by
      rw [behindUser, if_pos huser, hbehind]
      rfl
    have hpassword : HasPassword (up ++ '@' :: behind) ↔ ':' ∈ up := by
      rw [HasPassword, hup]
      exact and_iff_right huser
    rw [hrest]
    simp only [if_pos huser, hpassword]
    cases hcolon : findChar ':' up 0 with
    | none =>
        have hno : ':' ∉ up := by
          rw [← findChar_zero_iff, hcolon]
          simp
        refine ⟨up, [], ?_⟩
        intro urlParts
        rw [explodeUser_append hat hslash, hcolon, if_neg hno]
    | some colon =>
        have hyes : ':' ∈ up := findChar_zero_iff.mp ⟨colon, hcolon⟩
        refine ⟨substr up 0 colon, up.drop (colon + 1), ?_⟩
        intro urlParts
        rw [explodeUser_append hat hslash, hcolon, if_pos hyes]
  · -- nothing is assigned, so any two texts will do
    have hpassword : ¬ HasPassword rest := fun h => huser h.1
    refine ⟨[], [], ?_⟩
    intro urlParts
    rw [behindUser, if_neg huser, if_neg huser, if_neg hpassword]
    unfold explodeUser
    cases hfind : findChar '@' rest 0 with
    | none => rfl
    | some at_ =>
        apply if_neg
        intro hlt
        exact huser ((lt_slash_iff '@' rest).mp ⟨at_, hfind, hlt⟩)

/-- `explodeHost` assigns the domain, and the port and the path that the URL has. -/
theorem explodeHost_eq (rest : Text) : ∃ domain port path, ∀ urlParts : Url, explodeHost rest urlParts =
    { urlParts with
      domain := domain
      port := if HasPort rest then port else urlParts.port
      path := if HasPath rest then path else urlParts.path } := by
  by_cases hport : HasPort rest
  · -- here the code assigns the path also where there is none
    obtain ⟨colon, hcolon, hlt⟩ := (lt_slash_iff ':' rest).mpr hport
    have hpath : HasPath rest := .inl hport
    cases hslash : findChar '/' (rest.drop (colon + 1)) 0 with
    | none =>
        refine ⟨substr rest 0 colon, rest.drop (colon + 1), [], ?_⟩
        intro urlParts
        unfold explodeHost
        rw [hcolon]
        dsimp only
        rw [if_pos hlt, hslash, if_pos hport, if_pos hpath]
    | some slash =>
        refine ⟨substr rest 0 colon, substr (rest.drop (colon + 1)) 0 slash,
          (rest.drop (colon + 1)).drop (slash + 1), ?_⟩
        intro urlParts
        unfold explodeHost
        rw [hcolon]
        dsimp only
        rw [if_pos hlt, hslash, if_pos hport, if_pos hpath]
  · -- the colon is behind the slash or missing, and in both cases there is no port
    have hnoPort : ∀ urlParts : Url, explodeHost rest urlParts =
        match findChar '/' rest 0 with
        | some slash => { urlParts with domain := substr rest 0 slash, path := rest.drop (slash + 1) }
        | none => { urlParts with domain := rest } := by
      intro urlParts
      unfold explodeHost
      cases hcolon : findChar ':' rest 0 with
      | none => rfl
      | some colon =>
          apply if_neg
          intro hlt
          exact hport ((lt_slash_iff ':' rest).mp ⟨colon, hcolon, hlt⟩)
    cases hslash : findChar '/' rest 0 with
    | none =>
        have hpath : ¬ HasPath rest := by
          rintro (h | h)
          · exact hport h
          · rw [← findChar_zero_iff, hslash] at h
            simp at h
        refine ⟨rest, [], [], ?_⟩
        intro urlParts
        rw [hnoPort, hslash, if_neg hport, if_neg hpath]
    | some slash =>
        have hpath : HasPath rest := .inr (findChar_zero_iff.mp ⟨slash, hslash⟩)
        refine ⟨substr rest 0 slash, [], rest.drop (slash + 1), ?_⟩
        intro urlParts
        rw [hnoPort, hslash, if_neg hport, if_pos hpath]

/-- Without a protocol it fails; else the parts are taken off one after the other. -/
theorem urlExplode_eq (urlStr : Text) :
    (behindProtocol urlStr = none ∧ ∃ e, ∀ urlParts, urlExplode urlStr urlParts = .error e) ∨
      ∃ protocol rest, behindProtocol urlStr = some rest ∧ ∀ urlParts, urlExplode urlStr urlParts = .ok
        (explodeHost (explodeUser rest { urlParts with protocol := protocol }).1
          (explodeUser rest { urlParts with protocol := protocol }).2) := by
  unfold behindProtocol urlExplode
  cases findChar ':' urlStr 0 with
  | none => exact .inl ⟨rfl, _, fun _ => rfl⟩
  | some colon =>
      dsimp only
      by_cases hslashes : substr urlStr colon 3 = "://".toList
      · right
        refine ⟨substr urlStr 0 colon, urlStr.drop (colon + 3), if_pos hslashes, ?_⟩
        intro urlParts
        rw [if_neg (not_not_intro hslashes)]
      · left
        rw [if_neg hslashes]
        exact ⟨rfl, _, fun _ => if_pos hslashes⟩

def SameOutcome : Except BesInternalError Url → Except BesInternalError Url → Prop
  | .error _, .error _ => True
  | .ok urlParts, .ok urlParts' => urlParts = urlParts'
  | _, _ => False

/-- The parts that a URL does not have are the same. -/
structure SameMissing (rest : Text) (urlParts urlParts' : Url) : Prop where
  uname : ¬ HasUser rest → urlParts.uname = urlParts'.uname
  psswd : ¬ HasPassword rest → urlParts.psswd = urlParts'.psswd
  port : ¬ HasPort (behindUser rest) → urlParts.port = urlParts'.port
  path : ¬ HasPath (behindUser rest) → urlParts.path = urlParts'.path

theorem ite_eq_ite_iff {P : Prop} [Decidable P] {new old old' : Text} :
    (if P then new else old) = (if P then new else old') ↔ (¬ P → old = old') := by
  split
  next h => simp [h]
  next h => simp [h]

/-- Two structures come out the same exactly if nothing that the URL leaves as it was is different in
them. -/
theorem urlExplode_same_iff (urlStr : Text) (urlParts urlParts' : Url) :
    SameOutcome (urlExplode urlStr urlParts) (urlExplode urlStr urlParts') ↔
      ∀ rest, behindProtocol urlStr = some rest → SameMissing rest urlParts urlParts' := by
  obtain ⟨hnone, e, herror⟩ | ⟨protocol, rest, hsome, hok⟩ := urlExplode_eq urlStr
  · rw [herror, herror, hnone]
    exact iff_of_true trivial nofun
  · -- the same is assigned to both, so what was there before decides
    obtain ⟨uname, psswd, huser⟩ := explodeUser_eq rest
    obtain ⟨domain, port, path, hhost⟩ := explodeHost_eq (behindUser rest)
    have hsame : (∀ r, behindProtocol urlStr = some r → SameMissing r urlParts urlParts') ↔
        SameMissing rest urlParts urlParts' := by
      rw [hsome]
      simp
    rw [hsame, hok, hok, huser, huser]
    dsimp only
    rw [hhost, hhost]
    show (_ : Url) = _ ↔ _
    simp only [Url.mk.injEq, true_and, ite_eq_ite_iff]
    constructor
    · rintro ⟨huname, hpsswd, hport, hpath⟩
      exact ⟨huname, hpsswd, hport, hpath⟩
    · rintro ⟨huname, hpsswd, hport, hpath⟩
      exact ⟨huname, hpsswd, hport, hpath⟩

/-- A URL without a user name keeps the one of the URL before it. -/
theorem urlExplode_keeps_uname :
    ¬ ∀ (urlStr : Text) (urlParts urlParts' : Url),
      SameOutcome (urlExplode urlStr urlParts) (urlExplode urlStr urlParts') := by
  intro hall
  have hsame := hall "http://host/x".toList empty { empty with uname := "me".toList }
  have hfirst : urlExplode "http://host/x".toList empty =
      .ok ⟨"http".toList, "host".toList, [], [], [], "x".toList⟩ := rfl
  have hsecond : urlExplode "http://host/x".toList { empty with uname := "me".toList } =
      .ok ⟨"http".toList, "host".toList, "me".toList, [], [], "x".toList⟩ := rfl
  rw [hfirst, hsecond] at hsame
  exact absurd (congrArg Url.uname hsame) (by decide)

end Url

end Skunk.BesUtils
