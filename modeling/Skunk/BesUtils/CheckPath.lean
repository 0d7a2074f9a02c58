import Mathlib.Algebra.Group.Int.Defs
import Mathlib.Algebra.Group.Nat.Defs
import Skunk.Posix.FileSystem

/-!
# `BESUtil::check_path`

`checkPath` decides whether what a request asks for may be opened: the path holds no `..`, the file below
the root is there and can be read, and, unless links are followed, nothing between the root and the
file is a symbolic link. For the last part `pathnameContainsSymlink` asks `lstat` about the whole
pathname and then about what stands in front of its slashes, from the right, as many times as the path
has slashes.

The path has one part more than it has slashes, so one of them is left out unless the path ends in a
slash (`untested_eq`). `checkPath_safe_iff` says that this is the only way past the check: a link there,
and none that is looked at.
-/

namespace Skunk.BesUtils

open Skunk.Posix Skunk.Posix.FileSystem

/-! ## The check -/

/-- The exceptions of the check. -/
inductive BesError
  | notFound (message : Text)
  | forbidden (message : Text)
  | internal (message : Text)
  deriving DecidableEq, Repr

def strerror : Errno → Text
  | .enoent => "No such file or directory".toList
  | .enotdir => "Not a directory".toList
  | .eacces => "Permission denied".toList
  | .eloop => "Too many levels of symbolic links".toList

def throwAccessError {α : Type} (pathname : Text) : Errno → Except BesError α
  | .enoent | .enotdir => .error (.notFound ("Failed to locate '".toList ++ pathname ++ "'\n".toList))
  | _ => .error (.forbidden ("Not allowed to access '".toList ++ pathname ++ "'\n".toList))

variable (fs : FileSystem)

/-- The loop of `pathname_contains_symlink`; `more` is how often it may go on. -/
def searchLoop : Nat → Text → Except BesError Bool
  | more, pathname =>
    match fs.lstat (cStr pathname) with
    | .error e =>
      .error (.internal ("Could not resolve path when testing for symbolic links: ".toList ++ strerror e))
    | .ok node =>
      let pos := rfind '/' pathname
      let pathname := match pos with
        | some pos => pathname.take pos
        | none => pathname
      match more with
      | 0 => .ok node.isLink
      | more + 1 =>
        if !node.isLink && pos.isSome && !pathname.isEmpty then searchLoop more pathname
        else .ok node.isLink

/-- The pathname without a slash at its end. -/
def dropSlash (path : Text) : Text := if path.getLast? = some '/' then path.dropLast else path

def pathnameContainsSymlink (path : Text) (searchLimit : Int) : Except BesError Bool :=
  searchLoop fs (searchLimit - 1).toNat (dropSlash path)

/-- A count handed over as an `int`. -/
def toInt (n : Nat) : Int := Int.bmod n (2 ^ 32)

def rootPart (path root : Text) : Text :=
  if root.getLast? ≠ some '/' ∧ path.head? ≠ some '/' then root ++ ['/'] else root

def checkPath (path root : Text) (followSymLinks : Bool) : Except BesError Unit :=
  if path = [] then .ok ()
  else if ['.', '.'] <:+: path then throwAccessError path .eacces
  else
    let pathname := rootPart path root ++ path
    match fs.access (cStr pathname) with
    | .error e => throwAccessError pathname e
    | .ok () =>
      if followSymLinks = false then
        match pathnameContainsSymlink fs pathname (toInt (path.count '/')) with
        | .error e => .error e
        | .ok true => throwAccessError pathname .eacces
        | .ok false => .ok ()
      else .ok ()

/-! ## The parts that are tested -/

/-- How many parts of the path the search tests. -/
def searchDepth (path : Text) : Nat := (toInt (path.count '/') - 1).toNat + 1

/-- The parts of the path that are tested, the longest first. -/
def tested (path : Text) : List Text := (cuts (dropSlash path)).reverse.take (searchDepth path)

/-- The parts of the path that are not tested. -/
def untested (path : Text) : List Text := (cuts (dropSlash path)).reverse.drop (searchDepth path)

variable {fs}

/-- A text without a slash at its end, or with one. -/
theorem dropSlash_cases (path : Text) : dropSlash path = path ∧ path.getLast? ≠ some '/' ∨
    path = dropSlash path ++ ['/'] := by
  unfold dropSlash
  by_cases hlast : path.getLast? = some '/'
  · right
    rw [if_pos hlast]
    exact (List.dropLast_append_getLast? '/' hlast).symm
  · left
    rw [if_neg hlast]
    exact ⟨rfl, hlast⟩

/-- The search goes on no longer than there are slashes in the path. -/
theorem searchDepth_le (path : Text) : searchDepth path ≤ (dropSlash path).count '/' + 1 := by
  have hbmod : toInt (path.count '/') ≤ path.count '/' := by
    unfold toInt
    rw [Int.bmod]
    omega
  have hcount : path.count '/' ≤ (dropSlash path).count '/' + 1 := by
    rcases dropSlash_cases path with ⟨h, -⟩ | h
    · rw [h]
      omega
    · conv_lhs => rw [h, List.count_append]
      simp
  unfold searchDepth
  omega

/-- What is left out is the first part of a path that has a slash, but not at its end. -/
theorem untested_eq {path : Text} (hcount : path.count '/' < 2 ^ 31) : untested path =
    if '/' ∈ path ∧ path.getLast? ≠ some '/' then [path.takeWhile (· ≠ '/')] else [] := by
  have hdepth : searchDepth path = path.count '/' - 1 + 1 := by
    have hint : toInt (path.count '/') = path.count '/' := by
      unfold toInt
      rw [Int.bmod]
      omega
    unfold searchDepth
    omega
  have hlength := length_cuts (dropSlash path)
  have hpos : '/' ∈ path ↔ 0 < path.count '/' := List.count_pos_iff.symm
  rcases dropSlash_cases path with ⟨h, hlast⟩ | h
  · by_cases hmem : '/' ∈ path
    · have hhead := head_cuts path
      rw [if_pos ⟨hmem, hlast⟩, untested, h]
      rw [h] at hlength
      cases hcuts : cuts path with
      | nil => rw [hcuts] at hhead; cases hhead
      | cons part parts =>
          rw [hcuts] at hhead hlength
          obtain rfl := Option.some.inj hhead
          have hparts : searchDepth path = parts.reverse.length := by
            rw [List.length_cons] at hlength
            rw [List.length_reverse, hdepth]
            have := hpos.mp hmem
            omega
          rw [List.reverse_cons, hparts, List.drop_left]
    · rw [if_neg (fun h => hmem h.1), untested, List.drop_eq_nil_iff, List.length_reverse, hlength, h]
      have := List.count_eq_zero.mpr hmem
      omega
  · have hcount' : path.count '/' = (dropSlash path).count '/' + 1 := by
      conv_lhs => rw [h, List.count_append]
      simp
    have hlast : path.getLast? = some '/' := by rw [h, List.getLast?_concat]
    rw [if_neg (fun h => h.2 hlast), untested, List.drop_eq_nil_iff, List.length_reverse, hlength]
    omega

/-! ## The search -/

/-- The pathname `part` names something that is no symbolic link. -/
def Passes (fs : FileSystem) (part : Text) : Prop :=
  ∃ node, fs.lstat (cStr part) = .ok node ∧ node.isLink = false

theorem searchLoop_zero_iff (pathname : Text) :
    searchLoop fs 0 pathname = .ok false ↔ Passes fs pathname := by
  unfold searchLoop Passes
  cases fs.lstat (cStr pathname) <;> simp

theorem searchLoop_succ_iff {more : Nat} {a b : Text} (ha : a ≠ []) (hb : '/' ∉ b) :
    searchLoop fs (more + 1) (a ++ '/' :: b) = .ok false ↔
      Passes fs (a ++ '/' :: b) ∧ searchLoop fs more a = .ok false := by
  rw [searchLoop, rfind_append_cons hb]
  unfold Passes
  cases fs.lstat (cStr (a ++ '/' :: b)) with
  | error e => simp
  | ok node => cases hlink : node.isLink <;> simp [hlink, ha]

/-- The search comes out with no link exactly if all the parts that it has time for pass. -/
theorem searchLoop_iff {base s : Text} {more : Nat} (hbase : base ≠ []) (hmore : more ≤ s.count '/') :
    searchLoop fs more (base ++ s) = .ok false ↔
      ∀ part ∈ (cuts s).reverse.take (more + 1), Passes fs (base ++ part) := by
  induction more generalizing s with
  | zero =>
      rw [searchLoop_zero_iff]
      rcases last_slash s with hs | ⟨a, b, rfl, hb⟩
      · simp [cuts_of_notMem hs]
      · simp [cuts_append_slash, cuts_of_notMem hb]
  | succ more ih =>
      rcases last_slash s with hs | ⟨a, b, rfl, hb⟩
      · rw [List.count_eq_zero.mpr hs] at hmore
        omega
      · have hcount : more ≤ a.count '/' := by
          rw [List.count_append, List.count_cons, List.count_eq_zero.mpr hb] at hmore
          simp only [beq_self_eq_true, if_true] at hmore
          omega
        rw [← List.append_assoc, searchLoop_succ_iff (by simp [hbase]) hb, ih hcount,
          List.append_assoc]
        simp [cuts_append_slash, cuts_of_notMem hb]

/-! ## Below the root -/

/-- The root is there, and no part of it is a symbolic link. -/
structure RootOk (fs : FileSystem) (root : Text) : Prop where
  noNul : '\x00' ∉ root
  found : ∃ dir, fs.lookup true root = .ok dir
  linkFree : fs.LinkFree (start fs.cwd root) (pieces root)

def rootDir (fs : FileSystem) (root : Text) : List Text := (pieces root).foldl walk (start fs.cwd root)

section
variable {root : Text} (hroot : RootOk fs root)
include hroot

theorem RootOk.ne_nil : root ≠ [] := by
  rintro rfl
  obtain ⟨dir, h⟩ := hroot.found
  cases h

theorem RootOk.walk : fs.walkLinks fs.maxLinks true (start fs.cwd root) (pieces root) =
    .ok (rootDir fs root) := by
  obtain ⟨dir, h⟩ := hroot.found
  rw [lookup, if_neg hroot.ne_nil] at h
  rw [h, walkLinks_linkFree hroot.linkFree h]
  rfl

theorem start_append (path : Text) : start fs.cwd (root ++ path) = start fs.cwd root := by
  obtain ⟨c, cs, rfl⟩ := List.exists_cons_of_ne_nil hroot.ne_nil
  rfl

/-- A pathname below the root is walked from the root's directory. -/
theorem lookup_below (follow : Bool) (path : Text) : fs.lookup follow (root ++ '/' :: path) =
    fs.walkLinks fs.maxLinks follow (rootDir fs root) (pieces path) := by
  rw [lookup, if_neg (by simp), start_append hroot, pieces_append_slash]
  exact walkLinks_append_of_linkFree hroot.linkFree hroot.walk _

/-- The slash between the root and the path may be doubled. -/
theorem lookup_rootPart (follow : Bool) (path : Text) :
    fs.lookup follow (rootPart path root ++ path) =
      fs.walkLinks fs.maxLinks follow (rootDir fs root) (pieces path) := by
  rw [← lookup_below hroot]
  unfold rootPart
  by_cases hlast : root.getLast? = some '/'
  · -- one slash of the root's own, and perhaps one of the path's
    rw [if_neg (fun h => h.1 hlast), ← List.dropLast_append_getLast? '/' hlast]
    simp only [List.append_assoc, List.singleton_append]
    exact (lookup_double_slash follow _ path).symm
  by_cases hhead : path.head? = some '/'
  · obtain ⟨rest, rfl⟩ := List.head?_eq_some_iff.mp hhead
    rw [if_neg (fun h => h.2 rfl)]
    exact (lookup_double_slash follow root rest).symm
  · rw [if_pos ⟨hlast, hhead⟩, List.append_assoc]
    rfl

theorem cStr_rootPart (path part : Text) :
    cStr (rootPart path root ++ part) = rootPart path root ++ cStr part := by
  apply cStr_append_of_notMem
  unfold rootPart
  split
  · simp [hroot.noNul]
  · exact hroot.noNul

omit hroot in
theorem cuts_dropSlash {path part : Text} (h : part ∈ cuts (dropSlash path)) : part ∈ cuts path := by
  rcases dropSlash_cases path with ⟨hpath, -⟩ | hpath
  · rwa [hpath] at h
  · rw [hpath, cuts_append_slash]
    exact List.mem_append_left _ h

omit hroot in
/-- The part that is empty stands in front of a slash, so that the root itself is looked up. -/
theorem rootPart_of_nil {path : Text} (hpath : path ≠ []) (h : [] ∈ cuts (dropSlash path)) :
    rootPart path root = root := by
  have hhead : path.head? = some '/' := by
    rcases mem_cuts.mp h with hnil | ⟨rest, hrest⟩
    · rcases dropSlash_cases path with ⟨hdrop, -⟩ | hdrop
      · exact absurd (hdrop.symm.trans hnil.symm) hpath
      · rw [hdrop, ← hnil]
        rfl
    · rcases dropSlash_cases path with ⟨hdrop, -⟩ | hdrop
      · rw [← hdrop, hrest]
        rfl
      · rw [hdrop, hrest]
        rfl
  exact if_neg fun h => h.2 hhead

omit hroot in
theorem rootPart_of_cut {path part : Text} (hpart : part ≠ []) (h : part ∈ cuts path) :
    rootPart path root = rootPart (cStr part) root := by
  obtain ⟨c, cs, rfl⟩ := List.exists_cons_of_ne_nil hpart
  have hhead : path.head? = some c := by
    rcases mem_cuts.mp h with rfl | ⟨rest, rfl⟩ <;> rfl
  have hcStr : (cStr (c :: cs)).head? = some '/' ↔ c = '/' := by
    by_cases hc : c = '\x00'
    · subst hc
      simp [cStr]
    · simp [cStr, hc]
  simp only [rootPart, ne_eq, hcStr, hhead, Option.some.injEq]

/-- How the parts of a path are looked up. -/
theorem lookup_part {path part : Text} (hpath : path ≠ []) (hpart : part ∈ cuts (dropSlash path))
    (follow : Bool) : fs.lookup follow (cStr (rootPart path root ++ part)) =
      if part = [] then fs.lookup follow root
      else fs.walkLinks fs.maxLinks follow (rootDir fs root) (pieces (cStr part)) := by
  rw [cStr_rootPart hroot]
  by_cases hnil : part = []
  · subst hnil
    rw [if_pos rfl, rootPart_of_nil hpath hpart]
    exact congrArg _ (List.append_nil root)
  · rw [if_neg hnil, rootPart_of_cut hnil (cuts_dropSlash hpart), lookup_rootPart hroot]

theorem access_path {path : Text} (hpath : path ≠ [])
    (haccess : fs.access (cStr (rootPart path root ++ path)) = .ok ()) :
    ∃ file, fs.walkLinks fs.maxLinks true (rootDir fs root) (pieces (cStr path)) = .ok file := by
  rw [cStr_rootPart hroot, rootPart_of_cut hpath (mem_cuts.mpr (.inl rfl)), access,
    lookup_rootPart hroot] at haccess
  split at haccess
  · cases haccess
  next file hfile => exact ⟨file, hfile⟩

/-- If the whole path is there, so is each part of it. -/
theorem part_found {path part : Text} (hpath : path ≠ [])
    (haccess : fs.access (cStr (rootPart path root ++ path)) = .ok ())
    (hpart : part ∈ cuts (dropSlash path)) :
    ∃ file, fs.lookup false (cStr (rootPart path root ++ part)) = .ok file := by
  rw [lookup_part hroot hpath hpart]
  by_cases hnil : part = []
  · rw [if_pos hnil, lookup, if_neg hroot.ne_nil]
    apply walkLinks_front
    · rw [List.append_nil]
      exact hroot.walk
  · rw [if_neg hnil]
    obtain ⟨file, hfile⟩ := access_path hroot hpath haccess
    obtain ⟨rest, hrest⟩ := pieces_of_cut (cStr_cut (cuts_dropSlash hpart))
    rw [hrest] at hfile
    exact walkLinks_front hfile

/-- A path with no link below the root has no part that is one. -/
theorem linkFree_part {path part : Text} {file : List Text} (hpath : path ≠ [])
    (hfree : fs.LinkFree (rootDir fs root) (pieces (cStr path))) (hpart : part ∈ cuts (dropSlash path))
    (h : fs.lookup false (cStr (rootPart path root ++ part)) = .ok file) : ¬ fs.LinkAt file := by
  have hdir : ¬ fs.LinkAt (rootDir fs root) := by
    apply linkFree_not_linkAt _ hroot.linkFree
    apply not_linkAt_of_dir
    unfold start
    split
    · exact fs.root_dir
    · exact fs.cwd_dir
  rw [lookup_part hroot hpath hpart] at h
  by_cases hnil : part = []
  · rw [if_pos hnil, lookup, if_neg hroot.ne_nil] at h
    rw [walkLinks_linkFree hroot.linkFree h]
    exact hdir
  · rw [if_neg hnil] at h
    obtain ⟨rest, hrest⟩ := pieces_of_cut (cStr_cut (cuts_dropSlash hpart))
    rw [hrest, linkFree_append] at hfree
    rw [walkLinks_linkFree hfree.1 h]
    exact linkFree_not_linkAt hdir hfree.1

/-- A path with a link below the root has a part that is one. -/
theorem exists_link_part {path : Text} (hpath : path ≠ [])
    (haccess : fs.access (cStr (rootPart path root ++ path)) = .ok ())
    (hlink : ¬ fs.LinkFree (rootDir fs root) (pieces (cStr path))) :
    ∃ part ∈ cuts (dropSlash path), ∃ file,
      fs.lookup false (cStr (rootPart path root ++ part)) = .ok file ∧ fs.LinkAt file := by
  obtain ⟨_, hfile⟩ := access_path hroot hpath haccess
  obtain ⟨front, name, rest, link, hpieces, hname, hlinkAt, hfound⟩ := exists_first_link hfile hlink
  obtain ⟨y, hy, hfront⟩ := exists_cut hpieces
  -- the part of the path that a C function sees as `y`
  have hpart : ∃ part ∈ cuts (dropSlash path), cStr part = y := by
    obtain ⟨part, hpart, rfl⟩ := exists_cut_of_cStr hy
    rcases dropSlash_cases path with ⟨hdrop, -⟩ | hdrop
    · exact ⟨part, by rwa [hdrop], rfl⟩
    rw [hdrop, cuts_append_slash, List.mem_append] at hpart
    rcases hpart with hpart | hpart
    · exact ⟨part, hpart, rfl⟩
    -- the whole path, with its slash at the end
    obtain rfl : part = dropSlash path ++ ['/'] := by simpa [cuts] using hpart
    by_cases hnul : '\x00' ∈ dropSlash path
    · exact ⟨dropSlash path, mem_cuts.mpr (.inl rfl), (cStr_append_of_mem hnul _).symm⟩
    · exfalso
      rw [cStr_append_of_notMem hnul] at hfront
      have hlast := congrArg List.getLast? hfront
      have hslash : pieces (dropSlash path ++ cStr ['/']) = pieces (dropSlash path) ++ [[]] :=
        pieces_append_slash (dropSlash path) []
      rw [hslash, List.getLast?_concat, List.getLast?_concat, Option.some.injEq] at hlast
      exact hname (.inl hlast.symm)
  obtain ⟨part, hpart, rfl⟩ := hpart
  refine ⟨part, hpart, link, ?_, hlinkAt⟩
  rw [lookup_part hroot hpath hpart, if_neg, hfront]
  · exact hfound
  · rintro rfl
    apply hname
    have hlast := congrArg List.getLast? hfront
    rw [List.getLast?_concat] at hlast
    exact .inl (Option.some.inj hlast).symm

end

/-! ## What the check lets through -/

/-- What the check is there for. -/
def Safe (fs : FileSystem) (path root : Text) : Prop :=
  ¬ ['.', '.'] <:+: path ∧ fs.LinkFree (rootDir fs root) (pieces (cStr path)) ∧
    fs.access (cStr (rootPart path root ++ path)) = .ok ()

/-- A part of the path is a symbolic link. -/
def LinkPart (fs : FileSystem) (path root part : Text) : Prop :=
  ∃ target, fs.lstat (cStr (rootPart path root ++ part)) = .ok (.link target)

/-- A link is among the parts that are not tested, and none among those that are. -/
def SlipsThrough (fs : FileSystem) (path root : Text) : Prop :=
  ¬ ['.', '.'] <:+: path ∧ fs.access (cStr (rootPart path root ++ path)) = .ok () ∧
    (∃ part ∈ untested path, LinkPart fs path root part) ∧
    ∀ part ∈ tested path, ¬ LinkPart fs path root part

theorem linkPart_of_lookup {path root part : Text} {file : List Text}
    (h : fs.lookup false (cStr (rootPart path root ++ part)) = .ok file) :
    LinkPart fs path root part ↔ fs.LinkAt file := by
  obtain ⟨node, hnode, hlstat⟩ := lstat_of_lookup h
  unfold LinkPart LinkAt
  rw [hlstat, hnode]
  simp

theorem passes_of_lookup {path root part : Text} {file : List Text}
    (h : fs.lookup false (cStr (rootPart path root ++ part)) = .ok file) :
    Passes fs (rootPart path root ++ part) ↔ ¬ LinkPart fs path root part := by
  obtain ⟨node, hnode, hlstat⟩ := lstat_of_lookup h
  unfold Passes LinkPart
  rw [hlstat]
  cases node <;> simp [Node.isLink]

theorem pathnameContainsSymlink_iff {path root : Text} (hroot : root ≠ []) (hpath : path ≠ []) :
    pathnameContainsSymlink fs (rootPart path root ++ path) (toInt (path.count '/')) = .ok false ↔
      ∀ part ∈ tested path, Passes fs (rootPart path root ++ part) := by
  have hbase : rootPart path root ≠ [] := by
    unfold rootPart
    split <;> simp [hroot]
  have hdrop : dropSlash (rootPart path root ++ path) = rootPart path root ++ dropSlash path := by
    have hlast : (rootPart path root ++ path).getLast? = path.getLast? := by
      rw [List.getLast?_append, Option.or_of_isSome]
      simp [hpath]
    unfold dropSlash
    rw [hlast, List.dropLast_append_of_ne_nil hpath]
    split <;> rfl
  rw [pathnameContainsSymlink, hdrop]
  exact searchLoop_iff hbase (Nat.le_of_succ_le_succ (searchDepth_le path))

/-- When the check lets a path through. -/
theorem checkPath_ok_iff {path root : Text} (hroot : RootOk fs root) (hpath : path ≠ []) :
    checkPath fs path root false = .ok () ↔
      ¬ ['.', '.'] <:+: path ∧ fs.access (cStr (rootPart path root ++ path)) = .ok () ∧
        ∀ part ∈ tested path, ¬ LinkPart fs path root part := by
  rw [checkPath, if_neg hpath]
  by_cases hdots : ['.', '.'] <:+: path
  · simp [hdots, throwAccessError]
  rw [if_neg hdots]
  cases haccess : fs.access (cStr (rootPart path root ++ path)) with
  | error e => cases e <;> simp [throwAccessError, haccess]
  | ok u =>
      have hparts : (∀ part ∈ tested path, Passes fs (rootPart path root ++ part)) ↔
          ∀ part ∈ tested path, ¬ LinkPart fs path root part := by
        refine forall₂_congr fun part hpart => ?_
        have hmem : part ∈ cuts (dropSlash path) := List.mem_reverse.mp (List.mem_of_mem_take hpart)
        obtain ⟨file, hfile⟩ := part_found hroot hpath haccess hmem
        exact passes_of_lookup hfile
      rw [← hparts, ← pathnameContainsSymlink_iff hroot.ne_nil hpath]
      dsimp only
      rw [if_pos rfl, haccess]
      cases pathnameContainsSymlink fs (rootPart path root ++ path) (toInt (path.count '/')) with
      | error e => simp
      | ok found => cases found <;> simp [throwAccessError, hdots]

/-- What the check lets through is as it should be, unless a link slips through. -/
theorem checkPath_safe_iff {path root : Text} (hroot : RootOk fs root) (hpath : path ≠ []) :
    (checkPath fs path root false = .ok () → Safe fs path root) ↔ ¬ SlipsThrough fs path root := by
  rw [checkPath_ok_iff hroot hpath]
  constructor
  · rintro hsafe ⟨hdots, haccess, ⟨part, hpart, hlink⟩, htested⟩
    have hmem : part ∈ cuts (dropSlash path) := List.mem_reverse.mp (List.mem_of_mem_drop hpart)
    obtain ⟨file, hfile⟩ := part_found hroot hpath haccess hmem
    have hfree := (hsafe ⟨hdots, haccess, htested⟩).2.1
    exact linkFree_part hroot hpath hfree hmem hfile ((linkPart_of_lookup hfile).mp hlink)
  · rintro hslip ⟨hdots, haccess, htested⟩
    refine ⟨hdots, ?_, haccess⟩
    by_contra hlink
    obtain ⟨part, hpart, file, hfile, hlinkAt⟩ := exists_link_part hroot hpath haccess hlink
    have hlinkPart := (linkPart_of_lookup hfile).mpr hlinkAt
    have hsplit : part ∈ tested path ++ untested path := by
      rw [tested, untested, List.take_append_drop]
      exact List.mem_reverse.mpr hpart
    rcases List.mem_append.mp hsplit with hpart | hpart
    · exact htested part hpart hlinkPart
    · exact hslip ⟨hdots, haccess, ⟨part, hpart, hlinkPart⟩, htested⟩

/-- A root `/r` in which `a` is a link to the directory `/x`. -/
def linkedRoot : FileSystem :=
  .ofEntries
    [([], .dir), ([['r']], .dir), ([['r'], ['a']], .link ['/', 'x']), ([['x']], .dir),
      ([['x'], ['b']], .file)]
    40 rfl (by decide)

theorem linkedRoot_dir_ok (c : Char) (hc : c = 'r' ∨ c = 'x') : RootOk linkedRoot ['/', c] := by
  rcases hc with rfl | rfl
  · refine ⟨by decide, ⟨[['r']], by decide⟩, ?_, ?_, trivial⟩ <;> rintro ⟨target, h⟩ <;> cases h
  · refine ⟨by decide, ⟨[['x']], by decide⟩, ?_, ?_, trivial⟩ <;> rintro ⟨target, h⟩ <;> cases h

/-- Asked for below `/x`, the file `b` is let through as it should be. -/
theorem plain_file_safe : checkPath linkedRoot ['b'] ['/', 'x'] false = .ok () ∧
    Safe linkedRoot ['b'] ['/', 'x'] := by
  have hok : checkPath linkedRoot ['b'] ['/', 'x'] false = .ok () := by decide
  refine ⟨hok, (checkPath_safe_iff (linkedRoot_dir_ok 'x' (.inr rfl)) (by decide)).mpr ?_ hok⟩
  rintro ⟨-, -, ⟨part, hpart, -⟩, -⟩
  rw [untested_eq (by decide)] at hpart
  cases hpart

/-- Asked for through the link in `/r`, it slips through. -/
theorem linked_file_not_safe : RootOk linkedRoot ['/', 'r'] ∧
    checkPath linkedRoot ['a', '/', 'b'] ['/', 'r'] false = .ok () ∧
    ¬ Safe linkedRoot ['a', '/', 'b'] ['/', 'r'] := by
  refine ⟨linkedRoot_dir_ok 'r' (.inl rfl), by decide, ?_⟩
  rintro ⟨-, ⟨hlink, -⟩, -⟩
  exact hlink ⟨['/', 'x'], rfl⟩

end Skunk.BesUtils
