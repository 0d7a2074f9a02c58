import Skunk.Posix.Directories
import Skunk.BesUtils.CheckPath

/-!
# `BESUtil::mkdir_p`

`mkdirP` cuts a path at its last slash, makes what stands in front of it, and then calls `mkdir`. Only one
slash at the end of a path is left out, so a directory may come twice, under two names, where the slashes
are repeated or a piece of the path is a detour: it is made the first time, and the second time `mkdir`
fails. `mkdirP_iff` says for which paths this does not happen (`Creatable`).

The induction is on the path's length. It carries that what was asked for is now a directory and either
was one before, in which case nothing has been made, or is new and so holds nothing (`Made`); this is what
the caller's `mkdir` needs.
-/

namespace Skunk.BesUtils

open Skunk.Posix Skunk.Posix.FileSystem

/-! ## The functions -/

def isDirectory (fs : FileSystem) (p : Text) : Bool :=
  match fs.stat (cStr p) with
  | .ok node => node = .dir
  | .error _ => false

def getDirName (p : Text) : Text :=
  match rfind '/' p with
  | none => ['.']
  | some 0 => ['/']
  | some pos => p.take pos

/-- `BESUtil::mkdir_p`: what it returns, and the file system afterwards. The number bounds the depth of
the recursion; `none` says that it was not enough. -/
def mkdirP : Nat → Text → FileSystem → Option (Int × FileSystem)
  | 0, _, _ => none
  | fuel + 1, path, fs =>
    if path = [] then some (0, fs)
    else
      let p := dropSlash path
      if p = [] then some (0, fs)
      else if isDirectory fs p then some (0, fs)
      else do
        let (rc, fs) ← mkdirP fuel (getDirName p) fs
        if rc = 0 then
          match fs.mkdir (cStr p) with
          | some fs => some (0, fs)
          | none => some (-1, fs)
        else some (rc, fs)

def NonDirectory (fs : FileSystem) (p : Text) : Prop :=
  (∃ node, fs.lstat (cStr p) = .ok node) ∧ isDirectory fs p = false

instance (fs : FileSystem) (p : Text) : Decidable (NonDirectory fs p) :=
  decidable_of_iff ((fs.lstat (cStr p)).isOk = true ∧ isDirectory fs p = false) (by
    unfold NonDirectory
    cases fs.lstat (cStr p) <;> simp [Except.isOk, Except.toBool])

def baseName (p : Text) : Text :=
  match rfind '/' p with
  | none => p
  | some pos => p.drop (pos + 1)

/-- The paths whose missing part names every directory once. -/
structure Creatable (fs : FileSystem) (path : Text) : Prop where
  /-- A missing part has a name of its own, and the C function sees the whole of what is in front. -/
  names : ∀ x ∈ cuts path, baseName x ≠ [] → isDirectory fs x = false →
    '\x00' ∉ getDirName x ∧ ¬ IsSpecial (cStr (baseName x))
  /-- There are no three slashes behind it, and no two at the end. -/
  slashes : ∀ x rest, path = x ++ '/' :: '/' :: rest → x ≠ [] → isDirectory fs x = false →
    rest ≠ [] ∧ rest.head? ≠ some '/'

variable {fs : FileSystem}

theorem isDirectory_iff {p : Text} : isDirectory fs p = true ↔ ∃ dir, fs.DirAt (cStr p) dir := by
  rw [← stat_eq_dir_iff]
  unfold isDirectory
  cases fs.stat (cStr p) with
  | error e => simp
  | ok node => simp

/-! ## What stands in front of the last slash -/

theorem notMem_slash_cStr {b : Text} (hb : '/' ∉ b) : '/' ∉ cStr b := by
  intro h
  exact hb ((List.takeWhile_prefix _).subset h)

section
variable {a b p : Text}

theorem split_of_notMem (hb : '/' ∉ b) : getDirName b = ['.'] ∧ baseName b = b := by
  simp [getDirName, baseName, rfind_eq_none_iff.mpr hb]

theorem split_root (hb : '/' ∉ b) : getDirName ('/' :: b) = ['/'] ∧ baseName ('/' :: b) = b := by
  have hpos : rfind '/' ('/' :: b) = some 0 := @rfind_append_cons '/' [] b hb
  simp [getDirName, baseName, hpos]

theorem split_slash (ha : a ≠ []) (hb : '/' ∉ b) :
    getDirName (a ++ '/' :: b) = a ∧ baseName (a ++ '/' :: b) = b := by
  have hpos := rfind_append_cons (a := a) hb
  obtain ⟨c, a, rfl⟩ := List.exists_cons_of_ne_nil ha
  rw [List.length_cons] at hpos
  constructor
  · rw [getDirName, hpos]
    simp
  · rw [baseName, hpos]
    simp

/-- Where the last slash of a path stands. -/
inductive Split (p : Text) : Prop
  | cwd (hp : '/' ∉ p)
  | root (b : Text) (hp : p = '/' :: b) (hb : '/' ∉ b)
  | slash (a b : Text) (hp : p = a ++ '/' :: b) (ha : a ≠ []) (hb : '/' ∉ b)

theorem split_cases (p : Text) : Split p := by
  rcases last_slash p with hp | ⟨a, b, rfl, hb⟩
  · exact .cwd hp
  · cases a with
    | nil => exact .root b rfl hb
    | cons c a => exact .slash (c :: a) b rfl (by simp) hb

theorem notMem_baseName (p : Text) : '/' ∉ baseName p := by
  cases split_cases p with
  | cwd hp => rwa [(split_of_notMem hp).2]
  | root b hp hb => rwa [hp, (split_root hb).2]
  | slash a b hp ha hb => rwa [hp, (split_slash ha hb).2]

theorem baseName_eq_nil_iff (hp : p ≠ []) : baseName p = [] ↔ ∃ a, p = a ++ ['/'] := by
  constructor
  · intro h
    cases split_cases p with
    | cwd hslash =>
        rw [(split_of_notMem hslash).2] at h
        exact absurd h hp
    | root b hb hnot =>
        rw [hb, (split_root hnot).2] at h
        exact ⟨[], by rw [hb, h]; rfl⟩
    | slash a b hb ha hnot =>
        rw [hb, (split_slash ha hnot).2] at h
        exact ⟨a, by rw [hb, h]⟩
  · rintro ⟨a, rfl⟩
    by_cases ha : a = []
    · subst ha
      rfl
    · exact (split_slash ha (b := []) (by simp)).2

/-- The last cut of a path is the path; the others are in front of the last slash. -/
theorem cut_cases {x : Text} (hx : x ∈ cuts p) : x = p ∨ x = [] ∨ x ∈ cuts (getDirName p) := by
  cases split_cases p with
  | cwd hp =>
      rw [cuts_of_notMem hp, List.mem_singleton] at hx
      exact .inl hx
  | root b hp hb =>
      rw [hp, cuts, if_pos rfl, cuts_of_notMem hb] at hx
      rcases List.mem_cons.mp hx with hnil | hx
      · exact .inr (.inl hnil)
      · exact .inl (by simpa [hp] using hx)
  | slash a b hp ha hb =>
      rw [hp, cuts_append_slash, cuts_of_notMem hb] at hx
      rw [hp, (split_slash ha hb).1]
      rcases List.mem_append.mp hx with hx | hx
      · exact .inr (.inr hx)
      · exact .inl (by simpa using hx)

/-- Behind a NUL nothing is seen. -/
theorem cStr_eq_of_mem (h : '\x00' ∈ getDirName p) : cStr p = cStr (getDirName p) := by
  cases split_cases p with
  | cwd hp =>
      rw [(split_of_notMem hp).1] at h
      simp at h
  | root b hp hb =>
      rw [hp, (split_root hb).1] at h
      simp at h
  | slash a b hp ha hb =>
      rw [hp, (split_slash ha hb).1] at h ⊢
      exact cStr_append_of_mem h _

/-- Two slashes in a row are both in front of the last slash, or the second one is the last. -/
theorem double_slash {x rest : Text} (hp : p = x ++ '/' :: '/' :: rest) :
    baseName p = rest ∨
      ∃ r, getDirName p = x ++ '/' :: '/' :: r ∧ rest = r ++ '/' :: baseName p := by
  rcases last_slash rest with hrest | ⟨r, b, rfl, hb⟩
  · left
    have hp' : p = (x ++ ['/']) ++ '/' :: rest := by simp [hp]
    rw [hp', (split_slash (by simp) hrest).2]
  · right
    have hp' : p = (x ++ '/' :: '/' :: r) ++ '/' :: b := by simp [hp]
    obtain ⟨hdir, hbase⟩ := split_slash (a := x ++ '/' :: '/' :: r) (by simp) hb
    exact ⟨r, by rw [hp', hdir], by rw [hp', hbase]⟩

end

/-! ## Directories that are there -/

section
variable {path p x : Text} {dir : List Text}

theorem dirAt_cut (h : fs.DirAt (cStr p) dir) (hx : x ∈ cuts p) (hne : x ≠ []) :
    ∃ dir, fs.DirAt (cStr x) dir := by
  apply h.cut (cStr_cut hx)
  intro hnil
  -- a path that begins with a NUL denotes nothing
  have hp : cStr p = [] := by
    obtain ⟨c, x, rfl⟩ := List.exists_cons_of_ne_nil hne
    have hc : c = '\x00' := by
      by_contra hc
      simp [cStr, hc] at hnil
    rcases mem_cuts.mp hx with rfl | ⟨rest, rfl⟩ <;> simp [cStr, hc]
  have hlookup := h.lookup_eq
  rw [hp] at hlookup
  cases hlookup

theorem isDirectory_cut (h : isDirectory fs p = true) (hx : x ∈ cuts p) (hne : x ≠ []) :
    isDirectory fs x = true := by
  obtain ⟨dir, hdir⟩ := isDirectory_iff.mp h
  exact isDirectory_iff.mpr (dirAt_cut hdir hx hne)

theorem mem_cuts_self (p : Text) : p ∈ cuts p := mem_cuts.mpr (.inl rfl)

theorem prefix_of_mem_cuts (hx : x ∈ cuts p) : x <+: p := by
  rcases mem_cuts.mp hx with rfl | ⟨rest, rfl⟩
  · exact List.prefix_refl x
  · exact List.prefix_append x _

theorem mem_cuts_slash (p rest : Text) : p ∈ cuts (p ++ '/' :: rest) := mem_cuts.mpr (.inr ⟨rest, rfl⟩)

variable (hsearch : ∀ dir, fs.searchable dir = true)
include hsearch

theorem dirAt_dot : fs.DirAt ['.'] fs.cwd := by
  have hparent : fs.Parent ['.'] fs.cwd ['.'] := parent_cwd (by simp)
  exact hparent.dirAt_of_special (by simp) (hsearch _) (.inr (.inl rfl))

theorem dirAt_root : fs.DirAt ['/'] [] := by
  have hparent : fs.Parent ['/'] [] [] := parent_root (by simp)
  exact hparent.dirAt_of_special (by simp) (hsearch _) (.inl rfl)

/-- A slash at the end makes no difference. -/
theorem dirAt_slash (hp : p ≠ []) (h : fs.DirAt (cStr p) dir) : fs.DirAt (cStr (p ++ ['/'])) dir := by
  by_cases hnul : '\x00' ∈ p
  · rwa [cStr_append_of_mem hnul]
  · rw [cStr_of_notMem hnul] at h
    rw [cStr_append_of_notMem hnul]
    have hparent : fs.Parent (p ++ ['/']) dir [] := parent_slash hp h (by simp)
    exact hparent.dirAt_of_special (by simp) (hsearch _) (.inl rfl)

theorem isDirectory_slash (hp : p ≠ []) : isDirectory fs (p ++ ['/']) = isDirectory fs p := by
  rw [Bool.eq_iff_iff]
  constructor
  · intro h
    exact isDirectory_cut h (mem_cuts_slash p []) hp
  · intro h
    obtain ⟨dir, hdir⟩ := isDirectory_iff.mp h
    exact isDirectory_iff.mpr ⟨dir, dirAt_slash hsearch hp hdir⟩

/-- What a directory's parent is called, and where it is. -/
theorem parent_getDirName (hnul : '\x00' ∉ getDirName p) (h : fs.DirAt (cStr (getDirName p)) dir) :
    fs.Parent (cStr p) dir (cStr (baseName p)) := by
  rw [cStr_of_notMem hnul] at h
  cases split_cases p with
  | cwd hp =>
      obtain ⟨hdir, hbase⟩ := split_of_notMem hp
      rw [hdir] at h
      rw [hbase]
      obtain rfl : fs.cwd = dir := Except.ok.inj ((dirAt_dot hsearch).lookup_eq.symm.trans h.lookup_eq)
      exact parent_cwd (notMem_slash_cStr hp)
  | root b hp hb =>
      obtain ⟨hdir, hbase⟩ := split_root hb
      rw [hp, hdir] at h
      rw [hp, hbase]
      obtain rfl : [] = dir := Except.ok.inj ((dirAt_root hsearch).lookup_eq.symm.trans h.lookup_eq)
      exact parent_root (notMem_slash_cStr hb)
  | slash a b hp ha hb =>
      obtain ⟨hdir, hbase⟩ := split_slash ha hb
      rw [hp, hdir] at h hnul
      rw [hp, hbase, cStr_append_of_notMem hnul]
      exact parent_slash ha h (notMem_slash_cStr hb)

end

/-! ## Creatable paths -/

section
variable {path p : Text}

theorem creatable_of_isDirectory (h : isDirectory fs p = true) : Creatable fs p := by
  constructor
  · intro x hx hbase hmissing
    have hne : x ≠ [] := by
      rintro rfl
      exact hbase rfl
    rw [isDirectory_cut h hx hne] at hmissing
    cases hmissing
  · intro x rest hp hne hmissing
    have hx : x ∈ cuts p := hp ▸ mem_cuts_slash x _
    rw [isDirectory_cut h hx hne] at hmissing
    cases hmissing

variable (hsearch : ∀ dir, fs.searchable dir = true)
include hsearch

theorem isDirectory_getDirName (h : '/' ∉ p ∨ ∃ b, p = '/' :: b ∧ '/' ∉ b) :
    isDirectory fs (getDirName p) = true := by
  rcases h with hp | ⟨b, rfl, hb⟩
  · rw [(split_of_notMem hp).1]
    exact isDirectory_iff.mpr ⟨_, dirAt_dot hsearch⟩
  · rw [(split_root hb).1]
    exact isDirectory_iff.mpr ⟨_, dirAt_root hsearch⟩

/-- What stands in front of the last slash of a creatable path is creatable. -/
theorem Creatable.getDirName (h : Creatable fs p) : Creatable fs (getDirName p) := by
  cases split_cases p with
  | cwd hp => exact creatable_of_isDirectory (isDirectory_getDirName hsearch (.inl hp))
  | root b hp hb => exact creatable_of_isDirectory (isDirectory_getDirName hsearch (.inr ⟨b, hp, hb⟩))
  | slash a b hp ha hb =>
      rw [hp, (split_slash ha hb).1]
      constructor
      · intro x hx hbase hmissing
        apply h.names x _ hbase hmissing
        rw [hp, cuts_append_slash]
        exact List.mem_append_left _ hx
      · intro x rest hrest hne hmissing
        obtain ⟨-, hhead⟩ := h.slashes x (rest ++ '/' :: b) (by simp [hp, hrest]) hne hmissing
        cases rest with
        | nil => exact absurd rfl hhead
        | cons c rest => exact ⟨by simp, hhead⟩

/-- A missing path is creatable if its parent is and `mkdir` gets a new name. -/
theorem creatable_iff_of_missing (hp : p ≠ []) (hmissing : isDirectory fs p = false) :
    Creatable fs p ∧ baseName p ≠ [] ↔
      ('\x00' ∉ getDirName p ∧ ¬ IsSpecial (cStr (baseName p))) ∧ Creatable fs (getDirName p) := by
  constructor
  · rintro ⟨h, hbase⟩
    exact ⟨h.names p (mem_cuts_self p) hbase hmissing, h.getDirName hsearch⟩
  · rintro ⟨hname, h⟩
    have hbase : baseName p ≠ [] := by
      intro hnil
      rw [hnil] at hname
      exact hname.2 (.inl rfl)
    refine ⟨⟨?_, ?_⟩, hbase⟩
    · intro x hx hbase' hmissing'
      rcases cut_cases hx with rfl | rfl | hx
      · exact hname
      · exact absurd rfl hbase'
      · exact h.names x hx hbase' hmissing'
    · intro x rest hrest hne hmissing'
      rcases double_slash hrest with hlast | ⟨r, hdir, rfl⟩
      · -- the second slash is the last one, and a name stands behind it
        subst hlast
        refine ⟨hbase, fun hhead => notMem_baseName p (List.mem_of_mem_head? hhead)⟩
      · obtain ⟨hr, hhead⟩ := h.slashes x r hdir hne hmissing'
        obtain ⟨c, r, rfl⟩ := List.exists_cons_of_ne_nil hr
        exact ⟨by simp, hhead⟩

/-- One slash at the end of a missing path may be left out, but no more. -/
theorem creatable_slash_iff (hp : p ≠ []) (hmissing : isDirectory fs p = false) :
    Creatable fs (p ++ ['/']) ↔ Creatable fs p ∧ baseName p ≠ [] := by
  have hcuts : cuts (p ++ ['/']) = cuts p ++ [p ++ ['/']] := cuts_append_slash p []
  constructor
  · intro h
    refine ⟨⟨?_, ?_⟩, ?_⟩
    · intro x hx
      exact h.names x (by simp [hcuts, hx])
    · intro x rest hrest hne hmissing'
      obtain ⟨-, hhead⟩ := h.slashes x (rest ++ ['/']) (by simp [hrest]) hne hmissing'
      cases rest with
      | nil => exact absurd rfl hhead
      | cons c rest => exact ⟨by simp, hhead⟩
    · intro hbase
      -- with two at the end, `mkdir` would be called for the path with one
      obtain ⟨a, rfl⟩ := (baseName_eq_nil_iff hp).mp hbase
      have ha : a ≠ [] := by
        rintro rfl
        rw [isDirectory_iff.mpr ⟨_, dirAt_root hsearch⟩] at hmissing
        cases hmissing
      rw [isDirectory_slash hsearch ha] at hmissing
      obtain ⟨hrest, -⟩ := h.slashes a [] (by simp) ha hmissing
      exact hrest rfl
  · rintro ⟨h, hbase⟩
    constructor
    · intro x hx hbase' hmissing'
      rw [hcuts, List.mem_append, List.mem_singleton] at hx
      rcases hx with hx | rfl
      · exact h.names x hx hbase' hmissing'
      · exact absurd ((baseName_eq_nil_iff (by simp)).mpr ⟨p, rfl⟩) hbase'
    · intro x rest hrest hne hmissing'
      rcases List.eq_nil_or_concat rest with rfl | ⟨r, c, rfl⟩
      · -- then the path ends in a slash itself
        have happend : p ++ ['/'] = (x ++ ['/']) ++ ['/'] := by simp [hrest]
        obtain ⟨hx, -⟩ := List.append_inj' happend rfl
        exact absurd ((baseName_eq_nil_iff hp).mpr ⟨x, hx⟩) hbase
      · rw [List.concat_eq_append] at hrest ⊢
        have happend : p ++ ['/'] = (x ++ '/' :: '/' :: r) ++ [c] := by simp [hrest]
        obtain ⟨hx, -⟩ := List.append_inj' happend rfl
        obtain ⟨hr, hhead⟩ := h.slashes x r hx hne hmissing'
        obtain ⟨d, r, rfl⟩ := List.exists_cons_of_ne_nil hr
        exact ⟨by simp, hhead⟩

end

/-! ## One call -/

/-- The path is a directory now. Either nothing has been made, or the directory is new and holds nothing
yet. -/
structure Made (fs : FileSystem) (path : Text) (fs' : FileSystem) : Prop where
  grown : Grown fs fs'
  place : ∃ dir, fs'.DirAt (cStr path) dir ∧ (fs' = fs ∨ ∀ name, fs'.node (dir ++ [name]) = none)

section
variable {path p : Text} {fs' : FileSystem} (hsearch : ∀ dir, fs.searchable dir = true)

theorem made_of_isDirectory (h : isDirectory fs p = true) : Made fs p fs := by
  obtain ⟨dir, hdir⟩ := isDirectory_iff.mp h
  exact ⟨.refl fs, dir, hdir, .inl rfl⟩

include hsearch

theorem Made.searchable (h : Made fs p fs') (dir : List Text) : fs'.searchable dir = true := by
  rw [h.grown.searchable]
  exact hsearch dir

theorem Made.slash (hp : p ≠ []) (h : Made fs p fs') : Made fs (p ++ ['/']) fs' := by
  obtain ⟨hgrown, dir, hdir, hnew⟩ := h
  exact ⟨hgrown, dir, dirAt_slash (Made.searchable hsearch ⟨hgrown, dir, hdir, hnew⟩) hp hdir, hnew⟩

/-- In its parent, a new name is free. -/
theorem Made.mkdir_eq_some (hmissing : isDirectory fs p = false)
    (hnon : ¬ NonDirectory fs p) (h : Made fs (getDirName p) fs') (hnul : '\x00' ∉ getDirName p)
    (hname : ¬ IsSpecial (cStr (baseName p))) :
    ∃ fs'', fs'.mkdir (cStr p) = some fs'' ∧ Made fs p fs'' := by
  have hsearch' := h.searchable hsearch
  obtain ⟨hgrown, dir, hdir, hnew⟩ := h
  have hparent := parent_getDirName hsearch' hnul hdir
  have hbase : cStr (baseName p) ≠ [] := fun hnil => hname (.inl hnil)
  have hpath : cStr p ≠ [] := hparent.path_ne_nil hbase
  have hfree : fs'.node (dir ++ [cStr (baseName p)]) = none := by
    -- an old directory holds no file of that name, and a new one holds nothing
    rcases hnew with rfl | hnew
    · by_contra hentry
      obtain ⟨n, hn⟩ := Option.ne_none_iff_exists'.mp hentry
      exact hnon ⟨⟨n, hparent.lstat_eq hpath (hsearch _) hname hn⟩, hmissing⟩
    · exact hnew _
  have hnode := hparent.node_eq
  have hlater : Grown fs' (fs'.withDir hnode (cStr (baseName p))) := .withDir hnode hfree
  refine ⟨_, ?_, hgrown.trans hlater, dir ++ [cStr (baseName p)], ?_, .inr ?_⟩
  · rw [hparent.mkdir_eq hbase, addDir_eq_some hnode (hsearch' dir) hname hfree]
  · exact (hlater.parent hparent).dirAt_of_entry hpath (hsearch' dir) hname (if_pos rfl)
  · exact withDir_below hnode hfree

/-- A directory that is made for the second time. -/
theorem Made.mkdir_eq_none (h : Made fs (getDirName p) fs')
    (hname : '\x00' ∈ getDirName p ∨ IsSpecial (cStr (baseName p))) : fs'.mkdir (cStr p) = none := by
  have hsearch' := h.searchable hsearch
  obtain ⟨hgrown, dir, hdir, -⟩ := h
  by_cases hnul : '\x00' ∈ getDirName p
  · rw [cStr_eq_of_mem hnul]
    exact FileSystem.mkdir_eq_none hdir
  · have hparent := parent_getDirName hsearch' hnul hdir
    by_cases hpath : cStr p = []
    · rw [hpath]
      exact mkdir_of_slashes rfl
    · have hspecial := hname.resolve_left hnul
      exact FileSystem.mkdir_eq_none (hparent.dirAt_of_special hpath (hsearch' dir) hspecial)

end

/-! ## The recursion -/

section
variable {path p : Text} {fuel : Nat}

theorem mkdirP_of_isDirectory (h : isDirectory fs path = true) :
    mkdirP (fuel + 1) path fs = some (0, fs) := by
  rw [mkdirP]
  by_cases hpath : path = []
  · exact if_pos hpath
  rw [if_neg hpath]
  dsimp only
  by_cases hp : dropSlash path = []
  · exact if_pos hp
  have hcut : dropSlash path ∈ cuts path := cuts_dropSlash (mem_cuts_self _)
  rw [if_neg hp, if_pos (isDirectory_cut h hcut hp)]

/-- Where the directory is missing, its parents come first. -/
theorem mkdirP_of_missing (hpath : path ≠ []) (hp : dropSlash path ≠ [])
    (hmissing : isDirectory fs (dropSlash path) = false) {rc : Int} {fs' : FileSystem}
    (hrec : mkdirP fuel (getDirName (dropSlash path)) fs = some (rc, fs')) :
    mkdirP (fuel + 1) path fs = if rc = 0 then
      match fs'.mkdir (cStr (dropSlash path)) with
      | some fs'' => some (0, fs'')
      | none => some (-1, fs')
    else some (rc, fs') := by
  rw [mkdirP, if_neg hpath]
  dsimp only
  rw [if_neg hp, hmissing, hrec]
  rfl

/-- What a call does: it ends, and it makes the path if the path is creatable. -/
structure Outcome (fs : FileSystem) (path : Text) (enough : Nat) (rc : Int) (fs' : FileSystem) : Prop where
  run : ∀ fuel, enough ≤ fuel → mkdirP fuel path fs = some (rc, fs')
  made : Creatable fs path → rc = 0 ∧ Made fs path fs'
  failed : ¬ Creatable fs path → rc = -1

theorem Outcome.mono {enough enough' : Nat} {rc : Int} {fs' : FileSystem}
    (h : Outcome fs path enough rc fs') (hle : enough ≤ enough') : Outcome fs path enough' rc fs' := by
  refine ⟨?_, h.made, h.failed⟩
  intro fuel hfuel
  exact h.run fuel (hle.trans hfuel)

theorem outcome_of_isDirectory (h : isDirectory fs path = true) {enough : Nat} (henough : 0 < enough) :
    Outcome fs path enough 0 fs := by
  refine ⟨?_, ?_, ?_⟩
  · intro fuel hfuel
    obtain ⟨fuel, rfl⟩ := Nat.exists_eq_add_one.mpr (Nat.lt_of_lt_of_le henough hfuel)
    exact mkdirP_of_isDirectory h
  · intro _
    exact ⟨rfl, made_of_isDirectory h⟩
  · intro hnot
    exact absurd (creatable_of_isDirectory h) hnot

variable (hsearch : ∀ dir, fs.searchable dir = true)
include hsearch

/-- The slash at the end of a path is no part of it. -/
theorem dropSlash_props (hpath : path ≠ []) (hmissing : isDirectory fs path = false) :
    dropSlash path ≠ [] ∧ isDirectory fs (dropSlash path) = false ∧
      (Creatable fs path ↔ Creatable fs (dropSlash path) ∧ baseName (dropSlash path) ≠ []) ∧
      ∀ fs', Made fs (dropSlash path) fs' → Made fs path fs' := by
  rcases dropSlash_cases path with ⟨hdrop, hlast⟩ | hdrop
  · rw [hdrop]
    refine ⟨hpath, hmissing, ?_, fun _ h => h⟩
    refine (and_iff_left ?_).symm
    intro hbase
    obtain ⟨a, rfl⟩ := (baseName_eq_nil_iff hpath).mp hbase
    exact hlast (by simp)
  · have hne : dropSlash path ≠ [] := by
      intro hnil
      rw [hdrop, hnil] at hmissing
      rw [List.nil_append, isDirectory_iff.mpr ⟨_, dirAt_root hsearch⟩] at hmissing
      cases hmissing
    have hmissing' : isDirectory fs (dropSlash path) = false := by
      rw [← isDirectory_slash hsearch hne, ← hdrop]
      exact hmissing
    refine ⟨hne, hmissing', ?_, ?_⟩
    · conv_lhs => rw [hdrop]
      exact creatable_slash_iff hsearch hne hmissing'
    · intro fs' hmade
      rw [hdrop]
      exact hmade.slash hsearch hne

/-- From the outcome of the call for the parent to that of the call. -/
theorem outcome_of_missing (hpath : path ≠ []) (hmissing : isDirectory fs path = false)
    (hnon : ¬ NonDirectory fs (dropSlash path)) {enough : Nat} {rc : Int} {fs₁ : FileSystem}
    (hrec : Outcome fs (getDirName (dropSlash path)) enough rc fs₁) :
    ∃ rc fs', Outcome fs path (enough + 1) rc fs' := by
  obtain ⟨hp, hmissing', hcreatable, hmade⟩ := dropSlash_props hsearch hpath hmissing
  rw [creatable_iff_of_missing hsearch hp hmissing'] at hcreatable
  have hrun : ∀ fuel, enough + 1 ≤ fuel → mkdirP fuel path fs = if rc = 0 then
      match fs₁.mkdir (cStr (dropSlash path)) with
      | some fs'' => some (0, fs'')
      | none => some (-1, fs₁)
    else some (rc, fs₁) := by
    intro fuel hfuel
    obtain ⟨fuel, rfl⟩ := Nat.exists_eq_add_one.mpr (Nat.lt_of_lt_of_le (Nat.succ_pos _) hfuel)
    exact mkdirP_of_missing hpath hp hmissing' (hrec.run fuel (by omega))
  by_cases hparent : Creatable fs (getDirName (dropSlash path))
  · -- the parent is there, so the call of `mkdir` decides
    obtain ⟨rfl, hmade₁⟩ := hrec.made hparent
    by_cases hname : '\x00' ∉ getDirName (dropSlash path) ∧ ¬ IsSpecial (cStr (baseName (dropSlash path)))
    · obtain ⟨fs', hmkdir, hmade'⟩ := hmade₁.mkdir_eq_some hsearch hmissing' hnon hname.1 hname.2
      refine ⟨0, fs', ?_, fun _ => ⟨rfl, hmade _ hmade'⟩, ?_⟩
      · intro fuel hfuel
        rw [hrun fuel hfuel, hmkdir]
        rfl
      · intro hnot
        exact absurd (hcreatable.mpr ⟨hname, hparent⟩) hnot
    · -- the directory has been made under another name
      have hmkdir := hmade₁.mkdir_eq_none hsearch (by simpa [or_iff_not_imp_left] using hname)
      refine ⟨-1, fs₁, ?_, ?_, fun _ => rfl⟩
      · intro fuel hfuel
        rw [hrun fuel hfuel, hmkdir]
        rfl
      · intro h
        exact absurd (hcreatable.mp h).1 hname
  · obtain rfl := hrec.failed hparent
    refine ⟨-1, fs₁, ?_, ?_, fun _ => rfl⟩
    · intro fuel hfuel
      rw [hrun fuel hfuel]
      rfl
    · intro h
      exact absurd (hcreatable.mp h).2 hparent

theorem exists_outcome (hpath : path ≠ []) (hdirs : ∀ x ∈ cuts path, ¬ NonDirectory fs x) :
    ∃ rc fs', Outcome fs path (path.length + 1) rc fs' := by
  induction hlength : path.length using Nat.strong_induction_on generalizing path with
  | _ n ih =>
      have hpos : 0 < path.length := List.length_pos_of_ne_nil hpath
      by_cases hmissing : isDirectory fs path = true
      · exact ⟨0, fs, outcome_of_isDirectory hmissing (by omega)⟩
      · have hcut : dropSlash path ∈ cuts path := cuts_dropSlash (mem_cuts_self _)
        -- in front of the last slash stands a shorter path, or nothing but a directory
        have hrec : ∃ rc fs', Outcome fs (getDirName (dropSlash path)) n rc fs' := by
          cases split_cases (dropSlash path) with
          | cwd hp =>
              exact ⟨0, fs, outcome_of_isDirectory (isDirectory_getDirName hsearch (.inl hp)) (by omega)⟩
          | root b hp hb =>
              have hdir := isDirectory_getDirName hsearch (.inr ⟨b, hp, hb⟩)
              exact ⟨0, fs, outcome_of_isDirectory hdir (by omega)⟩
          | slash a b hp ha hb =>
              have hlt : a.length < n := by
                have hle := (prefix_of_mem_cuts hcut).length_le
                rw [hp] at hle
                simp at hle
                omega
              have ha' : ∀ x ∈ cuts a, ¬ NonDirectory fs x := by
                intro x hx
                apply hdirs
                apply cuts_dropSlash
                rw [hp, cuts_append_slash]
                exact List.mem_append_left _ hx
              obtain ⟨rc, fs', houtcome⟩ := ih a.length hlt ha ha' rfl
              rw [hp, (split_slash ha hb).1]
              exact ⟨rc, fs', houtcome.mono hlt⟩
        obtain ⟨rc, fs', houtcome⟩ := hrec
        exact outcome_of_missing hsearch hpath (Bool.eq_false_iff.mpr hmissing) (hdirs _ hcut) houtcome

end

/-- `mkdir_p` ends for every path. It returns 0 and has made the path and everything in front of it
exactly if the missing part of the path names every directory once. -/
theorem mkdirP_iff {path : Text} (hsearch : ∀ dir, fs.searchable dir = true) (hpath : path ≠ [])
    (hdirs : ∀ x ∈ cuts path, ¬ NonDirectory fs x) :
    ∃ rc fs', (∀ fuel, path.length < fuel → mkdirP fuel path fs = some (rc, fs')) ∧
      ((rc = 0 ∧ ∀ x ∈ cuts path, x ≠ [] → isDirectory fs' x = true) ↔ Creatable fs path) := by
  obtain ⟨rc, fs', houtcome⟩ := exists_outcome hsearch hpath hdirs
  refine ⟨rc, fs', houtcome.run, ?_⟩
  constructor
  · rintro ⟨hrc, -⟩
    by_contra hnot
    rw [houtcome.failed hnot] at hrc
    cases hrc
  · intro h
    obtain ⟨hrc, -, dir, hdir, -⟩ := houtcome.made h
    refine ⟨hrc, ?_⟩
    intro x hx hne
    exact isDirectory_iff.mpr (dirAt_cut hdir hx hne)

/-- A file system with nothing in it. -/
def bareRoot : FileSystem := .ofEntries [([], .dir)] 40 rfl (by decide)

/-- Two slashes between the names, and one at the end, do no harm. -/
theorem mkdirP_two_slashes : Creatable bareRoot "a//b/".toList ∧
    ∃ fs', (∀ fuel, "a//b/".toList.length < fuel → mkdirP fuel "a//b/".toList bareRoot = some (0, fs')) ∧
      ∀ x ∈ cuts "a//b/".toList, x ≠ [] → isDirectory fs' x = true := by
  obtain ⟨rc, fs', hrun, hiff⟩ :=
    @mkdirP_iff bareRoot "a//b/".toList (fun _ => rfl) (by decide) (by decide)
  have hvalue : (mkdirP 6 "a//b/".toList bareRoot).map (fun r =>
      (r.1, (cuts "a//b/".toList).all fun x => x = [] || isDirectory r.2 x)) = some (0, true) := by
    decide
  rw [hrun 6 (by decide)] at hvalue
  have hmade : rc = 0 ∧ ∀ x ∈ cuts "a//b/".toList, x ≠ [] → isDirectory fs' x = true := by
    simpa [or_iff_not_imp_left] using hvalue
  refine ⟨hiff.mp hmade, fs', ?_, hmade.2⟩
  rw [← hmade.1]
  exact hrun

/-- Three slashes: `a` is made for the second time as `a/`. -/
theorem mkdirP_three_slashes :
    (∀ dir, bareRoot.searchable dir = true) ∧
      (∀ x ∈ cuts "a///b".toList, ¬ NonDirectory bareRoot x) ∧
      ¬ ∃ fs', (∀ fuel, "a///b".toList.length < fuel → mkdirP fuel "a///b".toList bareRoot = some (0, fs')) ∧
        ∀ x ∈ cuts "a///b".toList, x ≠ [] → isDirectory fs' x = true := by
  refine ⟨fun _ => rfl, by decide, ?_⟩
  rintro ⟨fs', hrun, -⟩
  have hvalue : (mkdirP 6 "a///b".toList bareRoot).map Prod.fst = some (-1) := by decide
  rw [hrun 6 (by decide)] at hvalue
  cases hvalue

end Skunk.BesUtils
