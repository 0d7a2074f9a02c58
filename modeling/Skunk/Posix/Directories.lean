import Mathlib.Data.List.DropRight
import Skunk.Posix.FileSystem

/-!
# Making directories

`mkdir` walks what stands in front of the last name of a pathname and puts a directory there, unless
something of that name is there already. A file system that has got directories this way is `Grown`:
what could be found in it before is still found in the same place (`Grown.walkLinks_ok`).

`Parent` is how the two meet: a pathname whose last piece is `name` and whose other pieces lead to the
directory `dir`. From it follow what `lstat` says of the pathname, whether it is a directory and what
`mkdir` makes of it.
-/

namespace Skunk.Posix

namespace FileSystem

variable (fs : FileSystem)

/-- `stat`, as far as the file's type. -/
def stat (path : Text) : Except Errno Node :=
  match fs.lookup true path with
  | .error e => .error e
  | .ok file => match fs.node file with
    | some node => .ok node
    | none => .error .enoent

/-- The directory that a pathname denotes. -/
structure DirAt (path : Text) (dir : List Text) : Prop where
  lookup_eq : fs.lookup true path = .ok dir
  node_eq : fs.node dir = some .dir

/-- The directory that holds, or could hold, the entry a pathname denotes, and the entry's name. -/
def Parent (path : Text) (dir : List Text) (name : Text) : Prop :=
  ∃ front, pieces path = front ++ [name] ∧
    fs.walkLinks fs.maxLinks true (start fs.cwd path) front = .ok dir ∧ fs.node dir = some .dir

variable {fs}

theorem stat_eq_dir_iff {path : Text} : fs.stat path = .ok .dir ↔ ∃ dir, fs.DirAt path dir := by
  unfold stat
  constructor
  · intro h
    split at h
    · cases h
    next file hfile =>
      refine ⟨file, hfile, ?_⟩
      split at h
      · cases h
        assumption
      · cases h
  · rintro ⟨dir, hlookup, hnode⟩
    rw [hlookup]
    dsimp only
    rw [hnode]

/-! ## Parts of a walk -/

/-- What stands in front of a slash is a directory. -/
theorem walkWith_front_dir {expand expand' : List Text → List Text → Except Errno (List Text)}
    {follow : Bool} {cur ps qs file : List Text} {q : Text}
    (hexpand : ∀ cur ps file, expand cur (ps ++ q :: qs) = .ok file →
      ∃ dir, expand' cur ps = .ok dir ∧ fs.node dir = some .dir)
    (h : fs.walkWith expand follow cur (ps ++ q :: qs) = .ok file) :
    ∃ dir, fs.walkWith expand' true cur ps = .ok dir ∧ fs.node dir = some .dir := by
  induction ps generalizing cur with
  | nil =>
      -- the next piece has been looked up from here
      refine ⟨cur, rfl, ?_⟩
      rcases step_of_walkWith h with ⟨henter, -⟩ | ⟨henter, -⟩ | ⟨henter, -⟩ <;> exact enter_ok henter
  | cons p ps ih =>
      rw [List.cons_append] at h
      rcases step_of_walkWith h with ⟨henter, hp⟩ | ⟨henter, hp, n, hnode, hn⟩ |
        ⟨henter, hp, target, hnode⟩
      · rw [walkWith_special henter hp] at h ⊢
        exact ih h
      · rw [walkWith_entry henter hp hnode hn] at h ⊢
        exact ih h
      · rw [walkWith_link henter hp hnode] at h ⊢
        rw [if_neg (by simp)] at h ⊢
        by_cases htarget : target = []
        · rw [if_pos htarget] at h
          cases h
        · rw [if_neg htarget, ← List.append_assoc] at h
          rw [if_neg htarget]
          exact hexpand _ _ _ h

theorem walkLinks_front_dir {links : Nat} {follow : Bool} {cur ps qs file : List Text} {q : Text}
    (h : fs.walkLinks links follow cur (ps ++ q :: qs) = .ok file) :
    ∃ dir, fs.walkLinks links true cur ps = .ok dir ∧ fs.node dir = some .dir := by
  induction links generalizing cur ps file with
  | zero =>
      apply walkWith_front_dir _ h
      intro cur ps file h
      cases h
  | succ links ih =>
      apply walkWith_front_dir _ h
      intro cur ps file h
      exact ih h

/-- A walk goes on from where its first part has come to. -/
theorem walkWith_append {expand expand' : List Text → List Text → Except Errno (List Text)}
    {follow : Bool} {cur ps qs dir : List Text} {result : Except Errno (List Text)} (hqs : qs ≠ [])
    (hexpand : ∀ cur ps, expand cur ps = .ok dir → expand' cur (ps ++ qs) = result)
    (hrest : fs.walkWith expand' follow dir qs = result)
    (h : fs.walkWith expand true cur ps = .ok dir) :
    fs.walkWith expand' follow cur (ps ++ qs) = result := by
  induction ps generalizing cur with
  | nil =>
      obtain rfl := Except.ok.inj h
      exact hrest
  | cons p ps ih =>
      rw [List.cons_append]
      rcases step_of_walkWith h with ⟨henter, hp⟩ | ⟨henter, hp, n, hnode, hn⟩ |
        ⟨henter, hp, target, hnode⟩
      · rw [walkWith_special henter hp] at h ⊢
        exact ih h
      · rw [walkWith_entry henter hp hnode hn] at h ⊢
        exact ih h
      · -- with more pieces behind it, a link at the end is followed in any case
        rw [walkWith_link henter hp hnode] at h ⊢
        rw [if_neg (by simp)] at h
        rw [if_neg (by simp [hqs])]
        by_cases htarget : target = []
        · rw [if_pos htarget] at h
          cases h
        · rw [if_neg htarget] at h ⊢
          rw [← List.append_assoc]
          exact hexpand _ _ h

/-- Where the front of a path leads to a directory, the rest goes on from there. -/
theorem walkLinks_append {links : Nat} {follow : Bool} {cur ps qs dir : List Text}
    {result : Except Errno (List Text)} (hqs : qs ≠ [])
    (hrest : ∀ expand, fs.walkWith expand follow dir qs = result)
    (h : fs.walkLinks links true cur ps = .ok dir) :
    fs.walkLinks links follow cur (ps ++ qs) = result := by
  induction links generalizing cur ps with
  | zero =>
      apply walkWith_append hqs _ (hrest _) h
      intro cur ps h
      cases h
  | succ links ih => exact walkWith_append hqs (fun _ _ h => ih h) (hrest _) h

/-- A walk begins where the walk of its first part does. -/
theorem start_of_mem_cuts {path x : Text} (hx : x ∈ cuts path) (hne : x ≠ []) (cur : List Text) :
    start cur path = start cur x := by
  rcases mem_cuts.mp hx with rfl | ⟨rest, rfl⟩
  · rfl
  · unfold start
    rw [List.head?_append_of_ne_nil _ hne]

/-- With a pathname, what stands in front of its slashes is a directory. -/
theorem DirAt.cut {path x : Text} {dir : List Text} (h : fs.DirAt path dir) (hx : x ∈ cuts path)
    (hne : x ≠ []) : ∃ dir, fs.DirAt x dir := by
  rcases mem_cuts.mp hx with rfl | ⟨rest, rfl⟩
  · exact ⟨dir, h⟩
  · obtain ⟨hlookup, -⟩ := h
    obtain ⟨q, qs, hqs⟩ := List.exists_cons_of_ne_nil (pieces_ne_nil rest)
    rw [lookup, if_neg (by simp), start_of_mem_cuts hx hne, pieces_append_slash, hqs] at hlookup
    obtain ⟨dir', hdir', hnode⟩ := walkLinks_front_dir hlookup
    refine ⟨dir', ?_, hnode⟩
    rw [lookup, if_neg hne]
    exact hdir'

/-! ## The last piece -/

theorem parent_slash {a b : Text} {dir : List Text} (ha : a ≠ []) (h : fs.DirAt a dir) (hb : '/' ∉ b) :
    fs.Parent (a ++ '/' :: b) dir b := by
  refine ⟨pieces a, ?_, ?_, h.node_eq⟩
  · rw [pieces_append_slash, pieces_of_notMem hb]
  · have hlookup := h.lookup_eq
    rw [lookup, if_neg ha] at hlookup
    rw [start_of_mem_cuts (mem_cuts.mpr (.inr ⟨b, rfl⟩)) ha]
    exact hlookup

theorem walkLinks_nil (links : Nat) (follow : Bool) (cur : List Text) :
    fs.walkLinks links follow cur [] = .ok cur := by
  cases links <;> rfl

/-- A directory is an entry of a directory, or a detour from one. -/
theorem DirAt.exists_parent {path : Text} {dir : List Text} (h : fs.DirAt path dir) (hpath : path ≠ []) :
    ∃ d name, fs.Parent path d name := by
  have hpieces := (List.dropLast_append_getLast (pieces_ne_nil path)).symm
  have hlookup := h.lookup_eq
  rw [lookup, if_neg hpath, hpieces] at hlookup
  obtain ⟨d, hd, hnode⟩ := walkLinks_front_dir hlookup
  exact ⟨d, _, _, hpieces, hd, hnode⟩

/-- An entry of the root. -/
theorem parent_root {b : Text} (hb : '/' ∉ b) : fs.Parent ('/' :: b) [] b := by
  refine ⟨[[]], by rw [pieces_slash, pieces_of_notMem hb]; rfl, ?_, fs.root_dir⟩
  have hstep : ∀ expand, fs.walkWith expand true [] [[]] = .ok [] := by
    intro expand
    rw [walkWith_special (by simp [enter, fs.root_dir]) (.inl rfl)]
    rfl
  show fs.walkLinks fs.maxLinks true [] [[]] = .ok []
  cases fs.maxLinks <;> exact hstep _

/-- An entry of the current directory. -/
theorem parent_cwd {b : Text} (hb : '/' ∉ b) : fs.Parent b fs.cwd b := by
  refine ⟨[], pieces_of_notMem hb, ?_, fs.cwd_dir⟩
  have hhead : b.head? ≠ some '/' := fun h => hb (List.mem_of_mem_head? h)
  rw [start, if_neg hhead]
  exact walkLinks_nil _ _ _

namespace Parent

variable {path name : Text} {dir : List Text}

/-- The last step of the walk of a pathname. -/
theorem lookup_eq {follow : Bool} {result : Except Errno (List Text)} (h : fs.Parent path dir name)
    (hpath : path ≠ []) (hstep : ∀ expand, fs.walkWith expand follow dir [name] = result) :
    fs.lookup follow path = result := by
  obtain ⟨front, hpieces, hwalk, -⟩ := h
  rw [lookup, if_neg hpath, hpieces]
  exact walkLinks_append (by simp) hstep hwalk

theorem node_eq (h : fs.Parent path dir name) : fs.node dir = some .dir := by
  obtain ⟨front, hpieces, hwalk, hnode⟩ := h
  exact hnode

theorem path_ne_nil (h : fs.Parent path dir name) (hname : name ≠ []) : path ≠ [] := by
  rintro rfl
  obtain ⟨front, hpieces, -⟩ := h
  have hlast : [] ++ [[]] = front ++ [name] := hpieces
  obtain ⟨-, hnil⟩ := List.append_inj' hlast rfl
  exact hname (List.singleton_inj.mp hnil).symm

/-- The detours of a directory are directories. -/
theorem dirAt_of_special (h : fs.Parent path dir name) (hpath : path ≠ [])
    (hsearch : fs.searchable dir = true) (hname : IsSpecial name) : fs.DirAt path (walk dir name) := by
  have henter : fs.enter dir name = .ok () := by simp [enter, h.node_eq, hsearch]
  refine ⟨h.lookup_eq hpath ?_, walk_special_dir h.node_eq hname⟩
  intro expand
  rw [walkWith_special henter hname]
  rfl

theorem dirAt_of_entry (h : fs.Parent path dir name) (hpath : path ≠ [])
    (hsearch : fs.searchable dir = true) (hname : ¬ IsSpecial name)
    (hentry : fs.node (dir ++ [name]) = some .dir) : fs.DirAt path (dir ++ [name]) := by
  have henter : fs.enter dir name = .ok () := by simp [enter, h.node_eq, hsearch]
  refine ⟨h.lookup_eq hpath ?_, hentry⟩
  intro expand
  rw [walkWith_entry henter hname hentry rfl, walk_of_not_special hname]
  rfl

/-- `lstat` finds what is in the directory. -/
theorem lstat_eq {n : Node} (h : fs.Parent path dir name) (hpath : path ≠ [])
    (hsearch : fs.searchable dir = true) (hname : ¬ IsSpecial name)
    (hentry : fs.node (dir ++ [name]) = some n) : fs.lstat path = .ok n := by
  have henter : fs.enter dir name = .ok () := by simp [enter, h.node_eq, hsearch]
  have hlookup : fs.lookup false path = .ok (dir ++ [name]) := by
    apply h.lookup_eq hpath
    intro expand
    cases n with
    | dir => rw [walkWith_entry henter hname hentry rfl, walk_of_not_special hname]; rfl
    | file => rw [walkWith_entry henter hname hentry rfl, walk_of_not_special hname]; rfl
    | link target =>
        rw [walkWith_link henter hname hentry]
        exact if_pos ⟨rfl, rfl⟩
  rw [lstat, hlookup]
  dsimp only
  rw [hentry]

/-- What is not in the directory cannot be found. -/
theorem lookup_eq_error {follow : Bool} (h : fs.Parent path dir name) (hpath : path ≠ [])
    (henter : fs.enter dir name = .ok ()) (hname : ¬ IsSpecial name)
    (hentry : fs.node (dir ++ [name]) = none) : fs.lookup follow path = .error .enoent := by
  apply h.lookup_eq hpath
  intro expand
  rw [walkWith, henter]
  dsimp only
  rw [if_neg hname, hentry]

end Parent

/-! ## One more directory -/

section
variable (fs) (dir : List Text) (name : Text)

/-- What a name stands for when there is one more directory. -/
def nodeWith (file : List Text) : Option Node := if file = dir ++ [name] then some .dir else fs.node file

variable {dir name}

theorem nodeWith_eq_dir {file : List Text} (h : fs.node file = some .dir) :
    fs.nodeWith dir name file = some .dir := by
  unfold nodeWith
  split
  · rfl
  · exact h

theorem nodeWith_parent (hdir : fs.node dir = some .dir) (d : List Text) (n : Text)
    (h : fs.nodeWith dir name (d ++ [n]) ≠ none) : fs.nodeWith dir name d = some .dir := by
  apply nodeWith_eq_dir
  unfold nodeWith at h
  split at h
  next heq =>
    obtain ⟨rfl, -⟩ := List.append_inj' heq rfl
    exact hdir
  · exact fs.parent_dir d n h

def withDir (hdir : fs.node dir = some .dir) (name : Text) : FileSystem :=
  { fs with
    node := fs.nodeWith dir name
    root_dir := fs.nodeWith_eq_dir fs.root_dir
    cwd_dir := fs.nodeWith_eq_dir fs.cwd_dir
    parent_dir := fs.nodeWith_parent hdir }

/-- What `mkdir` does when it has come to the directory. -/
def addDir (dir : List Text) (name : Text) : Option FileSystem :=
  if h : fs.enter dir name = .ok () ∧ ¬ IsSpecial name ∧ fs.node (dir ++ [name]) = none then
    some (fs.withDir (enter_ok h.1) name)
  else none

/-- `mkdir`, with `none` for -1. Slashes at the end of the pathname are left out. -/
def mkdir (path : Text) : Option FileSystem := do
  let names := pieces (path.rdropWhile (· = '/'))
  let name ← names.getLast?
  let dir ← (fs.walkLinks fs.maxLinks true (start fs.cwd path) names.dropLast).toOption
  fs.addDir dir name

end

section
variable {path name : Text} {dir : List Text}

/-- Nothing but slashes is left out. -/
theorem rdropWhile_mem_cuts (path : Text) : path.rdropWhile (· = '/') ∈ cuts path := by
  rw [mem_cuts]
  have hpath : path.rdropWhile (· = '/') ++ path.rtakeWhile (· = '/') = path :=
    List.rdropWhile_append_rtakeWhile
  cases hslashes : path.rtakeWhile (· = '/') with
  | nil =>
      rw [hslashes, List.append_nil] at hpath
      exact .inl hpath
  | cons c rest =>
      have hc : c = '/' := by
        have hmem : c ∈ path.rtakeWhile (· = '/') := by simp [hslashes]
        simpa using List.mem_rtakeWhile_imp hmem
      subst hc
      exact .inr ⟨rest, by rw [← hslashes, hpath]⟩

theorem mkdir_eq_addDir (hnames : path.rdropWhile (· = '/') ≠ [])
    (h : fs.Parent (path.rdropWhile (· = '/')) dir name) : fs.mkdir path = fs.addDir dir name := by
  obtain ⟨front, hpieces, hwalk, -⟩ := h
  rw [mkdir, hpieces, List.getLast?_concat, List.dropLast_concat,
    start_of_mem_cuts (rdropWhile_mem_cuts path) hnames, hwalk]
  rfl

theorem Parent.mkdir_eq (h : fs.Parent path dir name) (hname : name ≠ []) :
    fs.mkdir path = fs.addDir dir name := by
  have hend : path.rdropWhile (· = '/') = path := by
    apply List.rdropWhile_eq_self_iff.mpr
    intro hne hslash
    -- a slash at the end has an empty piece behind it
    have hpath : path = path.dropLast ++ '/' :: [] := by
      conv_lhs => rw [← List.dropLast_append_getLast hne]
      rw [of_decide_eq_true hslash]
    obtain ⟨front, hpieces, -⟩ := h
    rw [hpath, pieces_append_slash] at hpieces
    obtain ⟨-, hnil⟩ := List.append_inj' hpieces rfl
    exact hname (List.singleton_inj.mp hnil).symm
  apply mkdir_eq_addDir
  · rw [hend]
    exact h.path_ne_nil hname
  · rw [hend]
    exact h

/-- The new directory holds nothing. -/
theorem withDir_below (hdir : fs.node dir = some .dir)
    (hnew : fs.node (dir ++ [name]) = none) (n : Text) :
    (fs.withDir hdir name).node (dir ++ [name] ++ [n]) = none := by
  have hother : dir ++ [name] ++ [n] ≠ dir ++ [name] := by simp
  show fs.nodeWith dir name _ = none
  rw [nodeWith, if_neg hother]
  by_contra hentry
  rw [fs.parent_dir _ n hentry] at hnew
  cases hnew

/-- A new directory is put where nothing of that name is. -/
theorem addDir_eq_some (hdir : fs.node dir = some .dir) (hsearch : fs.searchable dir = true)
    (hname : ¬ IsSpecial name) (hnew : fs.node (dir ++ [name]) = none) :
    fs.addDir dir name = some (fs.withDir hdir name) := by
  have henter : fs.enter dir name = .ok () := by simp [enter, hdir, hsearch]
  exact dif_pos ⟨henter, hname, hnew⟩

/-- Without a name nothing is made. -/
theorem mkdir_of_slashes (h : path.rdropWhile (· = '/') = []) : fs.mkdir path = none := by
  have hadd : ∀ dir, fs.addDir dir [] = none := fun dir => dif_neg fun h => h.2.1 (.inl rfl)
  rw [mkdir, h]
  simp [hadd]

/-- A directory that is there is not made again. -/
theorem mkdir_eq_none (h : fs.DirAt path dir) : fs.mkdir path = none := by
  by_cases hnames : path.rdropWhile (· = '/') = []
  · exact mkdir_of_slashes hnames
  · -- its entry is found in the directory above it
    obtain ⟨dir', hdir'⟩ := h.cut (rdropWhile_mem_cuts path) hnames
    obtain ⟨d, name, hparent⟩ := hdir'.exists_parent hnames
    rw [mkdir_eq_addDir hnames hparent]
    apply dif_neg
    rintro ⟨henter, hname, hnew⟩
    have hlookup := hdir'.lookup_eq
    rw [hparent.lookup_eq_error hnames henter hname hnew] at hlookup
    cases hlookup

end

/-! ## More directories -/

/-- A later file system, in which there are more directories and nothing else has changed. -/
structure Grown (fs fs' : FileSystem) : Prop where
  node : ∀ file, fs'.node file = fs.node file ∨ fs.node file = none ∧ fs'.node file = some .dir
  searchable : fs'.searchable = fs.searchable
  readable : fs'.readable = fs.readable
  cwd : fs'.cwd = fs.cwd
  maxLinks : fs'.maxLinks = fs.maxLinks

namespace Grown

variable {fs' fs'' : FileSystem}

theorem refl (fs : FileSystem) : Grown fs fs := ⟨fun _ => .inl rfl, rfl, rfl, rfl, rfl⟩

theorem trans (h : Grown fs fs') (h' : Grown fs' fs'') : Grown fs fs'' := by
  constructor
  · intro file
    have hnode := h.node file
    have hnode' := h'.node file
    grind
  · rw [h'.searchable, h.searchable]
  · rw [h'.readable, h.readable]
  · rw [h'.cwd, h.cwd]
  · rw [h'.maxLinks, h.maxLinks]

theorem withDir {dir : List Text} {name : Text} (hdir : fs.node dir = some .dir)
    (hnew : fs.node (dir ++ [name]) = none) : Grown fs (fs.withDir hdir name) := by
  refine ⟨?_, rfl, rfl, rfl, rfl⟩
  intro file
  by_cases hfile : file = dir ++ [name]
  · subst hfile
    exact .inr ⟨hnew, if_pos rfl⟩
  · exact .inl (if_neg hfile)

theorem node_eq {file : List Text} {n : Node} (h : Grown fs fs') (hn : fs.node file = some n) :
    fs'.node file = some n := by
  rcases h.node file with hsame | ⟨hnone, -⟩
  · rw [hsame, hn]
  · rw [hn] at hnone
    cases hnone

theorem enter_ok {cur : List Text} {p : Text} (h : Grown fs fs') (henter : fs.enter cur p = .ok ()) :
    fs'.enter cur p = .ok () := by
  have hcur := FileSystem.enter_ok henter
  simpa [enter, hcur, h.node_eq hcur, h.searchable] using henter

/-- What has been found is found again. -/
theorem walkWith_ok {expand expand' : List Text → List Text → Except Errno (List Text)} {follow : Bool}
    {cur ps file : List Text} (h : Grown fs fs')
    (hexpand : ∀ cur ps, expand cur ps = .ok file → expand' cur ps = .ok file)
    (hwalk : fs.walkWith expand follow cur ps = .ok file) :
    fs'.walkWith expand' follow cur ps = .ok file := by
  induction ps generalizing cur with
  | nil => exact hwalk
  | cons p ps ih =>
      rcases step_of_walkWith hwalk with ⟨henter, hp⟩ | ⟨henter, hp, n, hnode, hn⟩ |
        ⟨henter, hp, target, hnode⟩
      · rw [walkWith_special henter hp] at hwalk
        rw [walkWith_special (h.enter_ok henter) hp]
        exact ih hwalk
      · rw [walkWith_entry henter hp hnode hn] at hwalk
        rw [walkWith_entry (h.enter_ok henter) hp (h.node_eq hnode) hn]
        exact ih hwalk
      · rw [walkWith_link henter hp hnode] at hwalk
        rw [walkWith_link (h.enter_ok henter) hp (h.node_eq hnode)]
        by_cases hend : ps = [] ∧ follow = false
        · rw [if_pos hend] at hwalk ⊢
          exact hwalk
        · rw [if_neg hend] at hwalk ⊢
          by_cases htarget : target = []
          · rw [if_pos htarget] at hwalk
            cases hwalk
          · rw [if_neg htarget] at hwalk ⊢
            exact hexpand _ _ hwalk

theorem walkLinks_ok {links : Nat} {follow : Bool} {cur ps file : List Text} (h : Grown fs fs')
    (hwalk : fs.walkLinks links follow cur ps = .ok file) :
    fs'.walkLinks links follow cur ps = .ok file := by
  induction links generalizing cur ps with
  | zero =>
      apply h.walkWith_ok _ hwalk
      intro cur ps hexpand
      cases hexpand
  | succ links ih => exact h.walkWith_ok (fun _ _ hexpand => ih hexpand) hwalk

theorem parent {path name : Text} {dir : List Text} (h : Grown fs fs')
    (hparent : fs.Parent path dir name) : fs'.Parent path dir name := by
  obtain ⟨front, hpieces, hwalk, hnode⟩ := hparent
  refine ⟨front, hpieces, ?_, h.node_eq hnode⟩
  rw [h.maxLinks, h.cwd]
  exact h.walkLinks_ok hwalk

end Grown

end FileSystem

end Skunk.Posix
