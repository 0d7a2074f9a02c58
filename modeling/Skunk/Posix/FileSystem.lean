import Skunk.Posix.Path

/-!
# Looking up files

A tree of directories, files and symbolic links, and how the system calls find a file in it. A lookup
walks the pieces of a pathname; at a symbolic link it goes on with the link's target in place of the
piece. The link at the very end of a pathname is followed or not, as the system call asks (`lstat` does
not); one that has a slash behind it is not at the end.

Two facts carry what is said about lookups. If a lookup succeeds, so does the lookup of what stands in
front of any slash (`walkLinks_front`). And if a walk that succeeds meets a symbolic link, looking up
what stands in front of the slash behind the first one finds that link (`exists_first_link`).
-/

namespace Skunk.Posix

/-- The errors of a lookup. -/
inductive Errno
  | enoent | enotdir | eacces | eloop
  deriving DecidableEq, Repr

/-- What a name stands for. -/
inductive Node
  | dir | file
  | link (target : Text)
  deriving DecidableEq, Repr

/-- `S_ISLNK`. -/
def Node.isLink : Node → Bool
  | .link _ => true
  | _ => false

/-- A file system as one process sees it. A file is named by the names on the way to it from the
root. -/
structure FileSystem where
  node : List Text → Option Node
  searchable : List Text → Bool
  readable : List Text → Bool
  cwd : List Text
  maxLinks : Nat
  root_dir : node [] = some .dir
  cwd_dir : node cwd = some .dir
  parent_dir : ∀ d name, node (d ++ [name]) ≠ none → node d = some .dir

/-- A file system given by the list of its files, with everything permitted. -/
def FileSystem.ofEntries (entries : List (List Text × Node)) (maxLinks : Nat)
    (hroot : entries.lookup [] = some .dir)
    (hparent : ∀ e ∈ entries, e.1 = [] ∨ entries.lookup e.1.dropLast = some .dir) : FileSystem where
  node := fun f => entries.lookup f
  searchable := fun _ => true
  readable := fun _ => true
  cwd := []
  maxLinks := maxLinks
  root_dir := hroot
  cwd_dir := hroot
  parent_dir := by
    intro d name h
    obtain ⟨n, hn⟩ := Option.ne_none_iff_exists'.mp h
    obtain ⟨l₁, l₂, hsplit, -⟩ := List.lookup_eq_some_iff.mp hn
    have hmem : (d ++ [name], n) ∈ entries := by simp [hsplit]
    rcases hparent _ hmem with hnil | hdir
    · exact absurd hnil (by simp)
    · rwa [List.dropLast_concat] at hdir

/-- A piece that is not the name of an entry. -/
def IsSpecial (piece : Text) : Prop := piece = [] ∨ piece = ['.'] ∨ piece = ['.', '.']

instance (piece : Text) : Decidable (IsSpecial piece) := inferInstanceAs (Decidable (_ ∨ _))

theorem walk_of_not_special {dir : List Text} {piece : Text} (h : ¬ IsSpecial piece) :
    walk dir piece = dir ++ [piece] := by
  unfold IsSpecial at h
  rw [not_or, not_or] at h
  simp [walk, h]

namespace FileSystem

variable (fs : FileSystem)

/-! ## The walk -/

/-- Where the walk of a pathname begins. -/
def start (cur : List Text) (path : Text) : List Text := if path.head? = some '/' then [] else cur

/-- One piece may be looked up from here. -/
def enter (cur : List Text) (piece : Text) : Except Errno Unit :=
  if fs.node cur ≠ some .dir then .error .enotdir
  else if piece ≠ [] ∧ fs.searchable cur = false then .error .eacces
  else .ok ()

/-- The walk of the pieces of a pathname, with what is done at a link that is followed. -/
def walkWith (expand : List Text → List Text → Except Errno (List Text)) (follow : Bool) :
    List Text → List Text → Except Errno (List Text)
  | cur, [] => .ok cur
  | cur, p :: ps =>
    match fs.enter cur p with
    | .error e => .error e
    | .ok () =>
      if IsSpecial p then walkWith expand follow (walk cur p) ps
      else match fs.node (cur ++ [p]) with
        | none => .error .enoent
        | some (.link target) =>
          if ps = [] ∧ follow = false then .ok (cur ++ [p])
          else if target = [] then .error .enoent
          else expand (start cur target) (pieces target ++ ps)
        | some _ => walkWith expand follow (cur ++ [p]) ps

/-- The walk that follows so many links at most. -/
def walkLinks : Nat → Bool → List Text → List Text → Except Errno (List Text)
  | 0, follow => fs.walkWith (fun _ _ => .error .eloop) follow
  | links + 1, follow => fs.walkWith (walkLinks links follow) follow

def lookup (follow : Bool) (path : Text) : Except Errno (List Text) :=
  if path = [] then .error .enoent
  else fs.walkLinks fs.maxLinks follow (start fs.cwd path) (pieces path)

def access (path : Text) : Except Errno Unit :=
  match fs.lookup true path with
  | .error e => .error e
  | .ok file => if fs.readable file then .ok () else .error .eacces

/-- `lstat`, as far as the file's type. -/
def lstat (path : Text) : Except Errno Node :=
  match fs.lookup false path with
  | .error e => .error e
  | .ok file => match fs.node file with
    | some node => .ok node
    | none => .error .enoent

def LinkAt (file : List Text) : Prop := ∃ target, fs.node file = some (.link target)

/-- None of the files that the pieces name one after the other is a symbolic link. -/
def LinkFree : List Text → List Text → Prop
  | _, [] => True
  | cur, p :: ps => ¬ fs.LinkAt (walk cur p) ∧ LinkFree (walk cur p) ps

variable {fs}

theorem linkFree_append (cur ps qs : List Text) :
    fs.LinkFree cur (ps ++ qs) ↔ fs.LinkFree cur ps ∧ fs.LinkFree (ps.foldl walk cur) qs := by
  induction ps generalizing cur with
  | nil => simp [LinkFree]
  | cons p ps ih => simp [LinkFree, ih, and_assoc]

theorem not_linkAt_of_dir {file : List Text} (h : fs.node file = some .dir) : ¬ fs.LinkAt file := by
  rintro ⟨target, ht⟩
  rw [h] at ht
  cases ht

theorem enter_ok {cur : List Text} {p : Text} (h : fs.enter cur p = .ok ()) :
    fs.node cur = some .dir := by
  unfold enter at h
  by_contra hdir
  rw [if_pos hdir] at h
  cases h

/-- The detours lead from a directory to a directory. -/
theorem walk_special_dir {cur : List Text} {p : Text} (hcur : fs.node cur = some .dir)
    (hp : IsSpecial p) : fs.node (walk cur p) = some .dir := by
  rcases hp with rfl | rfl | rfl
  · exact hcur
  · exact hcur
  · show fs.node cur.dropLast = some .dir
    rcases List.eq_nil_or_concat cur with rfl | ⟨d, name, rfl⟩
    · exact hcur
    · rw [List.concat_eq_append] at hcur ⊢
      rw [List.dropLast_concat]
      exact fs.parent_dir d name (by simp [hcur])

/-! ## Steps of a walk

A walk that succeeds has entered a directory; the piece then was a detour, the name of a directory or a
file, or the name of a link. -/

section
variable {expand : List Text → List Text → Except Errno (List Text)} {follow : Bool}
  {cur ps : List Text} {p : Text}

theorem walkWith_special (henter : fs.enter cur p = .ok ()) (hp : IsSpecial p) :
    fs.walkWith expand follow cur (p :: ps) = fs.walkWith expand follow (walk cur p) ps := by
  rw [walkWith, henter]
  exact if_pos hp

/-- A link is followed, but not at the end if the call does not follow it there. -/
theorem walkWith_link {target : Text} (henter : fs.enter cur p = .ok ()) (hp : ¬ IsSpecial p)
    (hnode : fs.node (cur ++ [p]) = some (.link target)) :
    fs.walkWith expand follow cur (p :: ps) =
      if ps = [] ∧ follow = false then .ok (cur ++ [p])
      else if target = [] then .error .enoent
      else expand (start cur target) (pieces target ++ ps) := by
  rw [walkWith, henter]
  dsimp only
  rw [if_neg hp, hnode]

theorem walkWith_entry {n : Node} (henter : fs.enter cur p = .ok ()) (hp : ¬ IsSpecial p)
    (hnode : fs.node (cur ++ [p]) = some n) (hn : n.isLink = false) :
    fs.walkWith expand follow cur (p :: ps) = fs.walkWith expand follow (walk cur p) ps := by
  rw [walkWith, henter, walk_of_not_special hp]
  dsimp only
  rw [if_neg hp, hnode]
  cases n with
  | dir => rfl
  | file => rfl
  | link target => cases hn

/-- What a step of a walk that succeeds has met. -/
inductive Step (fs : FileSystem) (cur : List Text) (p : Text) : Prop
  | special (henter : fs.enter cur p = .ok ()) (hp : IsSpecial p)
  | entry (henter : fs.enter cur p = .ok ()) (hp : ¬ IsSpecial p) (n : Node)
      (hnode : fs.node (cur ++ [p]) = some n) (hn : n.isLink = false)
  | link (henter : fs.enter cur p = .ok ()) (hp : ¬ IsSpecial p) (target : Text)
      (hnode : fs.node (cur ++ [p]) = some (.link target))

theorem step_of_walkWith {file : List Text}
    (h : fs.walkWith expand follow cur (p :: ps) = .ok file) : Step fs cur p := by
  rw [walkWith] at h
  split at h
  · cases h
  next henter =>
    by_cases hp : IsSpecial p
    · exact .special henter hp
    · rw [if_neg hp] at h
      cases hnode : fs.node (cur ++ [p]) with
      | none => rw [hnode] at h; cases h
      | some n =>
          cases n with
          | dir => exact .entry henter hp .dir hnode rfl
          | file => exact .entry henter hp .file hnode rfl
          | link target => exact .link henter hp target hnode

end

/-! ## Walks without links -/

/-- Where there are no links, a walk is the one of the pathname alone. -/
theorem walkWith_linkFree {expand : List Text → List Text → Except Errno (List Text)} {follow : Bool}
    {cur ps file : List Text} (hfree : fs.LinkFree cur ps)
    (h : fs.walkWith expand follow cur ps = .ok file) : file = ps.foldl walk cur := by
  induction ps generalizing cur with
  | nil => exact (Except.ok.inj h).symm
  | cons p ps ih =>
      obtain ⟨hlink, hrest⟩ := hfree
      rw [List.foldl_cons]
      rcases step_of_walkWith h with ⟨henter, hp⟩ | ⟨henter, hp, n, hnode, hn⟩ |
        ⟨henter, hp, target, hnode⟩
      · rw [walkWith_special henter hp] at h
        exact ih hrest h
      · rw [walkWith_entry henter hp hnode hn] at h
        exact ih hrest h
      · rw [walk_of_not_special hp] at hlink
        exact absurd ⟨target, hnode⟩ hlink

/-- Such a walk can be gone on with from where it has come to. -/
theorem walkWith_append_of_linkFree
    {expand expand' : List Text → List Text → Except Errno (List Text)} {follow follow' : Bool}
    {cur ps file : List Text} (hfree : fs.LinkFree cur ps)
    (h : fs.walkWith expand follow cur ps = .ok file) (qs : List Text) :
    fs.walkWith expand' follow' cur (ps ++ qs) = fs.walkWith expand' follow' file qs := by
  induction ps generalizing cur with
  | nil =>
      obtain rfl := Except.ok.inj h
      rfl
  | cons p ps ih =>
      obtain ⟨hlink, hrest⟩ := hfree
      rw [List.cons_append]
      rcases step_of_walkWith h with ⟨henter, hp⟩ | ⟨henter, hp, n, hnode, hn⟩ |
        ⟨henter, hp, target, hnode⟩
      · rw [walkWith_special henter hp] at h ⊢
        exact ih hrest h
      · rw [walkWith_entry henter hp hnode hn] at h ⊢
        exact ih hrest h
      · rw [walk_of_not_special hp] at hlink
        exact absurd ⟨target, hnode⟩ hlink

theorem walkLinks_linkFree {links : Nat} {follow : Bool} {cur ps file : List Text}
    (hfree : fs.LinkFree cur ps) (h : fs.walkLinks links follow cur ps = .ok file) :
    file = ps.foldl walk cur := by
  cases links <;> exact walkWith_linkFree hfree h

/-- A path without links leads to the same place with any number of links left. -/
theorem walkLinks_append_of_linkFree {links links' : Nat} {follow follow' : Bool}
    {cur ps file : List Text} (hfree : fs.LinkFree cur ps)
    (h : fs.walkLinks links follow cur ps = .ok file) (qs : List Text) :
    fs.walkLinks links' follow' cur (ps ++ qs) = fs.walkLinks links' follow' file qs := by
  cases links <;> cases links' <;> exact walkWith_append_of_linkFree hfree h qs

theorem linkFree_not_linkAt {cur ps : List Text} (hcur : ¬ fs.LinkAt cur) (h : fs.LinkFree cur ps) :
    ¬ fs.LinkAt (ps.foldl walk cur) := by
  induction ps generalizing cur with
  | nil => exact hcur
  | cons p ps ih => exact ih h.1 h.2

/-! ## Walks with links -/

/-- If a walk succeeds, so does the walk of its first part that does not follow a link at its end. -/
theorem walkWith_front {expand expand' : List Text → List Text → Except Errno (List Text)}
    {follow : Bool} {cur ps qs file : List Text}
    (hexpand : ∀ cur ps file, expand cur (ps ++ qs) = .ok file → ∃ file', expand' cur ps = .ok file')
    (h : fs.walkWith expand follow cur (ps ++ qs) = .ok file) :
    ∃ file', fs.walkWith expand' false cur ps = .ok file' := by
  induction ps generalizing cur with
  | nil => exact ⟨cur, rfl⟩
  | cons p ps ih =>
      rw [List.cons_append] at h
      rcases step_of_walkWith h with ⟨henter, hp⟩ | ⟨henter, hp, n, hnode, hn⟩ |
        ⟨henter, hp, target, hnode⟩
      · rw [walkWith_special henter hp] at h ⊢
        exact ih h
      · rw [walkWith_entry henter hp hnode hn] at h ⊢
        exact ih h
      · rw [walkWith_link henter hp hnode] at h ⊢
        by_cases hps : ps = []
        · exact ⟨cur ++ [p], if_pos ⟨hps, rfl⟩⟩
        · rw [if_neg (by simp [hps])] at h ⊢
          by_cases htarget : target = []
          · rw [if_pos htarget] at h
            cases h
          · rw [if_neg htarget, ← List.append_assoc] at h
            rw [if_neg htarget]
            exact hexpand _ _ _ h

theorem walkLinks_front {links : Nat} {follow : Bool} {cur ps qs file : List Text}
    (h : fs.walkLinks links follow cur (ps ++ qs) = .ok file) :
    ∃ file', fs.walkLinks links false cur ps = .ok file' := by
  induction links generalizing cur ps file with
  | zero =>
      apply walkWith_front _ h
      intro cur ps file h
      cases h
  | succ links ih =>
      apply walkWith_front _ h
      intro cur ps file h
      exact ih h

/-- What a walk has come to is there. -/
theorem walkWith_exists {expand : List Text → List Text → Except Errno (List Text)}
    {follow : Bool} {cur ps file : List Text} (hcur : fs.node cur ≠ none)
    (hexpand : ∀ cur ps file, fs.node cur ≠ none → expand cur ps = .ok file → fs.node file ≠ none)
    (h : fs.walkWith expand follow cur ps = .ok file) : fs.node file ≠ none := by
  induction ps generalizing cur with
  | nil =>
      obtain rfl := Except.ok.inj h
      exact hcur
  | cons p ps ih =>
      rcases step_of_walkWith h with ⟨henter, hp⟩ | ⟨henter, hp, n, hnode, hn⟩ |
        ⟨henter, hp, target, hnode⟩
      · rw [walkWith_special henter hp] at h
        exact ih (by simp [walk_special_dir (enter_ok henter) hp]) h
      · rw [walkWith_entry henter hp hnode hn] at h
        exact ih (by simp [walk_of_not_special hp, hnode]) h
      · rw [walkWith_link henter hp hnode] at h
        split at h
        · obtain rfl := Except.ok.inj h
          simp [hnode]
        · split at h
          · cases h
          · apply hexpand _ _ _ _ h
            unfold start
            split
            · simp [fs.root_dir]
            · simp [enter_ok henter]

theorem walkLinks_exists {links : Nat} {follow : Bool} {cur ps file : List Text}
    (hcur : fs.node cur ≠ none) (h : fs.walkLinks links follow cur ps = .ok file) :
    fs.node file ≠ none := by
  induction links generalizing cur ps file with
  | zero =>
      apply walkWith_exists hcur _ h
      intro cur ps file _ h
      cases h
  | succ links ih =>
      apply walkWith_exists hcur _ h
      intro cur ps file hcur h
      exact ih hcur h

theorem lookup_exists {follow : Bool} {path : Text} {file : List Text}
    (h : fs.lookup follow path = .ok file) : fs.node file ≠ none := by
  unfold lookup at h
  split at h
  · cases h
  · apply walkLinks_exists _ h
    unfold start
    split
    · simp [fs.root_dir]
    · simp [fs.cwd_dir]

theorem lstat_of_lookup {path : Text} {file : List Text} (h : fs.lookup false path = .ok file) :
    ∃ node, fs.node file = some node ∧ fs.lstat path = .ok node := by
  obtain ⟨node, hnode⟩ := Option.ne_none_iff_exists'.mp (lookup_exists h)
  refine ⟨node, hnode, ?_⟩
  rw [lstat, h]
  dsimp only
  rw [hnode]

/-- An empty piece that is not the last one makes no difference. -/
theorem walkWith_empty_piece {expand : List Text → List Text → Except Errno (List Text)}
    {follow : Bool} {cur ps qs : List Text} (hqs : qs ≠ [])
    (hexpand : ∀ cur ps, expand cur (ps ++ [] :: qs) = expand cur (ps ++ qs)) :
    fs.walkWith expand follow cur (ps ++ [] :: qs) = fs.walkWith expand follow cur (ps ++ qs) := by
  induction ps generalizing cur with
  | nil =>
      obtain ⟨q, qs, rfl⟩ := List.exists_cons_of_ne_nil hqs
      by_cases hcur : fs.node cur = some .dir
      · exact walkWith_special (by simp [enter, hcur]) (.inl rfl)
      · have henter : ∀ p, fs.enter cur p = .error .enotdir := fun p => if_pos hcur
        simp only [List.nil_append, walkWith, henter]
  | cons p ps ih =>
      have hne : ∀ xs, xs ≠ [] → (ps ++ xs = [] ∧ follow = false) = False := by simp +contextual
      simp only [List.cons_append, walkWith, ih, hne _ hqs, hne _ (List.cons_ne_nil _ _), if_false,
        ← List.append_assoc, hexpand]

theorem walkLinks_empty_piece {links : Nat} {follow : Bool} {cur ps qs : List Text} (hqs : qs ≠ []) :
    fs.walkLinks links follow cur (ps ++ [] :: qs) = fs.walkLinks links follow cur (ps ++ qs) := by
  induction links generalizing cur ps with
  | zero => exact walkWith_empty_piece hqs fun _ _ => rfl
  | succ links ih => exact walkWith_empty_piece hqs fun _ _ => ih

/-- Two slashes are as good as one. -/
theorem lookup_double_slash (follow : Bool) (a b : Text) :
    fs.lookup follow (a ++ '/' :: '/' :: b) = fs.lookup follow (a ++ '/' :: b) := by
  have hstart : start fs.cwd (a ++ '/' :: '/' :: b) = start fs.cwd (a ++ '/' :: b) := by
    cases a <;> rfl
  rw [lookup, lookup, if_neg (by simp), if_neg (by simp), hstart, pieces_append_slash,
    pieces_append_slash, pieces_slash]
  exact walkLinks_empty_piece (pieces_ne_nil b)

/-- If a walk that succeeds meets a link, the walk to the first one finds it. -/
theorem walkWith_first_link {expand : List Text → List Text → Except Errno (List Text)}
    {follow : Bool} {cur ps file : List Text}
    (h : fs.walkWith expand follow cur ps = .ok file) (hlink : ¬ fs.LinkFree cur ps) :
    ∃ front name rest link, ps = front ++ name :: rest ∧ ¬ IsSpecial name ∧ fs.LinkAt link ∧
      ∀ expand', fs.walkWith expand' false cur (front ++ [name]) = .ok link := by
  induction ps generalizing cur with
  | nil => exact absurd trivial hlink
  | cons p ps ih =>
      -- a step onto something else is put in front of what is found behind it
      have hcons : ∀ (hnot : ¬ fs.LinkAt (walk cur p))
          (hstep : ∀ expand follow ps, fs.walkWith expand follow cur (p :: ps) =
            fs.walkWith expand follow (walk cur p) ps),
          ∃ front name rest link, p :: ps = front ++ name :: rest ∧ ¬ IsSpecial name ∧
            fs.LinkAt link ∧
            ∀ expand', fs.walkWith expand' false cur (front ++ [name]) = .ok link := by
        intro hnot hstep
        rw [hstep] at h
        obtain ⟨front, name, rest, link, rfl, hname, hlinkAt, hwalk⟩ :=
          ih h fun hfree => hlink ⟨hnot, hfree⟩
        refine ⟨p :: front, name, rest, link, rfl, hname, hlinkAt, ?_⟩
        intro expand'
        rw [List.cons_append, hstep]
        exact hwalk expand'
      rcases step_of_walkWith h with ⟨henter, hp⟩ | ⟨henter, hp, n, hnode, hn⟩ |
        ⟨henter, hp, target, hnode⟩
      · apply hcons
        · exact not_linkAt_of_dir (walk_special_dir (enter_ok henter) hp)
        · intro expand follow ps
          exact walkWith_special henter hp
      · apply hcons
        · rintro ⟨target, htarget⟩
          rw [walk_of_not_special hp, hnode] at htarget
          obtain rfl := Option.some.inj htarget
          cases hn
        · intro expand follow ps
          exact walkWith_entry henter hp hnode hn
      · refine ⟨[], p, ps, cur ++ [p], rfl, hp, ⟨target, hnode⟩, ?_⟩
        intro expand'
        rw [List.nil_append, walkWith_link henter hp hnode]
        exact if_pos ⟨rfl, rfl⟩

/-- A path that is not free of links comes to a first one. -/
theorem exists_first_link {links : Nat} {follow : Bool} {cur ps file : List Text}
    (h : fs.walkLinks links follow cur ps = .ok file) (hlink : ¬ fs.LinkFree cur ps) :
    ∃ front name rest link, ps = front ++ name :: rest ∧ ¬ IsSpecial name ∧ fs.LinkAt link ∧
      fs.walkLinks links false cur (front ++ [name]) = .ok link := by
  have hwalk : ∃ expand, fs.walkWith expand follow cur ps = .ok file := by
    cases links <;> exact ⟨_, h⟩
  obtain ⟨expand, hwalk⟩ := hwalk
  obtain ⟨front, name, rest, link, hps, hname, hlinkAt, hfound⟩ := walkWith_first_link hwalk hlink
  refine ⟨front, name, rest, link, hps, hname, hlinkAt, ?_⟩
  cases links <;> exact hfound _

end FileSystem

end Skunk.Posix
