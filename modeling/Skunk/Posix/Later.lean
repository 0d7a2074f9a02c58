import Skunk.Posix.Faults

/-!
# What comes later

Numbers of files and descriptors are used once. So a later state of a kernel has the files and folders that it
had before, less what has been removed, and new ones with new numbers; and a descriptor that is still open is
open on the same file. The lock on a file is kept by every call but those that unlock or close a descriptor.
-/

namespace Skunk.Posix

namespace Kernel

/-- What every later state has in common with the one before. -/
structure Later (K K' : Kernel) : Prop where
  entries : ∀ e ∈ K'.entries, e ∈ K.entries ∨ K.nextIno ≤ e.2
  opened : ∀ fd o', fd < K.nextFd → K'.opened fd = some o' → ∃ o, K.opened fd = some o ∧ o.ino = o'.ino
  nextIno : K.nextIno ≤ K'.nextIno
  nextFd : K.nextFd ≤ K'.nextFd

section Later

variable {may : SysCall → Bool} {K K' K'' : Kernel} {i : Nat}

theorem Later.refl (K : Kernel) : Later K K where
  entries := fun _ he => .inl he
  opened := fun _ o _ ho => ⟨o, ho, rfl⟩
  nextIno := Nat.le_refl _
  nextFd := Nat.le_refl _

theorem Later.trans (h : Later K K') (h' : Later K' K'') : Later K K'' where
  entries := by
    intro e he
    rcases h'.entries e he with he | hnew
    · exact h.entries e he
    · exact .inr (h.nextIno.trans hnew)
  opened := by
    intro fd o'' hfd ho''
    obtain ⟨o', ho', hino'⟩ := h'.opened fd o'' (Nat.lt_of_lt_of_le hfd h.nextFd) ho''
    obtain ⟨o, ho, hino⟩ := h.opened fd o' hfd ho'
    exact ⟨o, ho, hino.trans hino'⟩
  nextIno := h.nextIno.trans h'.nextIno
  nextFd := h.nextFd.trans h'.nextFd

/-- One description has changed, or is gone. -/
theorem later_setOpen {fd : Nat} {x : Option OpenFile}
    (hx : ∀ y, x = some y → ∃ o, K.opened fd = some o ∧ o.ino = y.ino) : Later K (K.setOpen fd x) where
  entries := fun _ he => .inl he
  opened := by
    intro g o' _ ho'
    by_cases hg : g = fd
    · subst hg
      rw [setOpen_opened_self] at ho'
      exact hx o' ho'
    · rw [setOpen_opened_of_ne hg] at ho'
      exact ⟨o', ho', rfl⟩
  nextIno := Nat.le_refl _
  nextFd := Nat.le_refl _

theorem later_addOpen (K : Kernel) (i ino : Nat) : Later K (K.addOpen i ino) where
  entries := fun _ he => .inl he
  opened := by
    intro fd o' hfd ho'
    rw [addOpen_opened_of_ne (Nat.ne_of_lt hfd)] at ho'
    exact ⟨o', ho', rfl⟩
  nextIno := Nat.le_refl _
  nextFd := Nat.le_succ _

theorem later_addFile (K : Kernel) (i : Nat) (loc : List Text) : Later K (K.addFile i loc) where
  entries := by
    intro e he
    rcases List.mem_cons.mp he with rfl | he
    · exact .inr (Nat.le_refl _)
    · exact .inl he
  opened := by
    intro fd o' hfd ho'
    rw [addFile_opened_of_ne (Nat.ne_of_lt hfd)] at ho'
    exact ⟨o', ho', rfl⟩
  nextIno := Nat.le_succ _
  nextFd := Nat.le_succ _

theorem later_dropFile (K : Kernel) (loc : List Text) : Later K (K.dropFile loc) where
  entries := by
    intro e he
    rcases List.mem_append.mp he with he | he
    · exact .inl (mem_entries_of_file (List.mem_of_mem_filter he))
    · exact .inl (mem_entries_of_folder he)
  opened := fun _ o' _ ho' => ⟨o', ho', rfl⟩
  nextIno := Nat.le_refl _
  nextFd := Nat.le_refl _

theorem later_addFolder (K : Kernel) (loc : List Text) : Later K (K.addFolder loc) where
  entries := by
    intro e he
    rcases List.mem_append.mp he with he | he
    · exact .inl (mem_entries_of_file he)
    · rcases List.mem_cons.mp he with rfl | he
      · exact .inr (Nat.le_refl _)
      · exact .inl (mem_entries_of_folder he)
  opened := fun _ o' _ ho' => ⟨o', ho', rfl⟩
  nextIno := Nat.le_succ _
  nextFd := Nat.le_refl _

theorem later_makeFolders (K : Kernel) (cur ps : List Text) : Later K (K.makeFolders cur ps) := by
  induction ps generalizing K cur with
  | nil => exact .refl K
  | cons p ps ih =>
      rw [makeFolders]
      split
      · split
        · exact ih K _
        · exact (later_addFolder K _).trans (ih _ _)
      · exact .refl K

/-- Every call leads to a later state. -/
theorem later_of_exec {c : SysCall} {r : c.Reply} (h : exec i c K = some (r, K')) : Later K K' := by
  cases c with
  | stat | fstat | readdir | source | subtract =>
      obtain ⟨-, rfl⟩ := Prod.mk.inj (Option.some.inj h)
      exact .refl _
  | mkdirP path =>
      obtain ⟨-, rfl⟩ := Prod.mk.inj (Option.some.inj h)
      exact later_makeFolders K _ _
  | create path =>
      rcases exec_create h with ⟨-, rfl⟩ | ⟨loc, -, -, -, rfl⟩
      · exact .refl _
      · exact later_addFile K i loc
  | openRead path =>
      rcases exec_openRead h with ⟨-, -, rfl⟩ | ⟨ino, -, -, rfl⟩
      · exact .refl _
      · exact later_addOpen K i ino
  | openWrite path =>
      rcases exec_openWrite h with ⟨-, -, rfl⟩ | ⟨ino, -, -, rfl⟩
      · exact .refl _
      · exact later_addOpen K i ino
  | remove path =>
      rcases exec_remove h with ⟨-, rfl⟩ | ⟨loc, -, -, -, -, rfl⟩
      · exact .refl _
      · exact later_dropFile K loc
  | close fd =>
      obtain ⟨-, rfl⟩ := Prod.mk.inj (Option.some.inj h)
      exact later_setOpen nofun
  | flock fd mode nonblock =>
      cases ho : K.opened fd with
      | none =>
          rw [exec, ho] at h
          obtain ⟨-, rfl⟩ := Prod.mk.inj (Option.some.inj h)
          exact .refl _
      | some o =>
          rcases exec_flock ho h with ⟨-, -, rfl⟩ | ⟨-, rfl, -⟩
          · refine later_setOpen fun y hy => ⟨o, ho, ?_⟩
            obtain rfl := Option.some.inj hy
            rfl
          · exact .refl _
  | unlock fd | futimes fd | seek fd pos | read fd count =>
      rw [exec] at h
      split at h
      · obtain ⟨-, rfl⟩ := Prod.mk.inj (Option.some.inj h)
        exact .refl _
      next o ho =>
        obtain ⟨-, rfl⟩ := Prod.mk.inj (Option.some.inj h)
        first
        -- `futimes` changes no entry and no descriptor, the others one descriptor, but not its file
        | exact ⟨fun _ he => .inl he, fun _ o _ ho => ⟨o, ho, rfl⟩, Nat.le_refl _, Nat.le_refl _⟩
        | refine later_setOpen fun y hy => ⟨o, ho, ?_⟩
          obtain rfl := Option.some.inj hy
          rfl
  | write fd bytes =>
      cases ho : K.opened fd with
      | none =>
          rw [exec, ho] at h
          obtain ⟨-, rfl⟩ := Prod.mk.inj (Option.some.inj h)
          exact .refl _
      | some o =>
          rcases exec_write ho h with ⟨-, -, rfl⟩ | ⟨-, rfl⟩
          · -- what is in the files makes no difference
            have hset : Later (K.setData o.ino (overwrite (K.data o.ino) o.offset bytes))
                ((K.setData o.ino (overwrite (K.data o.ino) o.offset bytes)).setOpen fd
                  (some { o with offset := o.offset + bytes.length })) := by
              refine later_setOpen fun y hy => ⟨o, ho, ?_⟩
              obtain rfl := Option.some.inj hy
              rfl
            exact ⟨hset.entries, hset.opened, hset.nextIno, hset.nextFd⟩
          · exact .refl _

theorem Drift.later (h : Drift K K') : Later K K' where
  entries := by
    intro e he
    left
    rw [Kernel.entries, h.folders] at he
    exact (h.files.append_right _).mem_iff.mp he
  opened := fun _ o' _ ho' => ⟨o', h.opened ▸ ho', rfl⟩
  nextIno := Nat.le_of_eq h.nextIno.symm
  nextFd := Nat.le_of_eq h.nextFd.symm

/-- The calls that leave the locks alone, or take one. -/
def keepsLocks : SysCall → Bool
  | .close _ | .unlock _ => false
  | _ => true

/-- Whatever goes wrong, what a call leaves is what some call leaves. -/
theorem exec_of_does {c : SysCall} {r : c.Reply} (h : Does may i c K r K') :
    K' = K ∨ ∃ c' r', keepsLocks c' = keepsLocks c ∧ exec i c' K = some (r', K') := by
  rcases does_iff.mp h with h | ⟨-, φ, h⟩
  · exact .inr ⟨c, r, rfl, h⟩
  cases c with
  | subtract a b => exact .inr ⟨_, r, rfl, h⟩
  | close fd =>
      obtain ⟨-, rfl⟩ := Prod.mk.inj (Option.some.inj h)
      exact .inr ⟨.close fd, _, rfl, rfl⟩
  | read fd count =>
      cases φ with
      | refused =>
          obtain ⟨-, rfl⟩ := Prod.mk.inj (Option.some.inj h)
          exact .inl rfl
      | short n =>
          rw [falter] at h
          split at h
          · exact .inr ⟨.read fd n, r, rfl, h⟩
          · obtain ⟨-, rfl⟩ := Prod.mk.inj (Option.some.inj h)
            exact .inl rfl
  | write fd bytes =>
      cases φ with
      | refused =>
          obtain ⟨-, rfl⟩ := Prod.mk.inj (Option.some.inj h)
          exact .inl rfl
      | short n =>
          rw [falter] at h
          split at h
          · exact .inr ⟨.write fd (bytes.take n), r, rfl, h⟩
          · obtain ⟨-, rfl⟩ := Prod.mk.inj (Option.some.inj h)
            exact .inl rfl
  | _ =>
      cases φ <;>
      · obtain ⟨-, rfl⟩ := Prod.mk.inj (Option.some.inj h)
        exact .inl rfl

theorem Wf.does (h : K.Wf) {c : SysCall} {r : c.Reply} (hdoes : Does may i c K r K') : K'.Wf := by
  rcases exec_of_does hdoes with rfl | ⟨c', r', -, hexec⟩
  · exact h
  · exact h.exec hexec

theorem later_of_does {c : SysCall} {r : c.Reply} (h : Does may i c K r K') : Later K K' := by
  rcases exec_of_does h with rfl | ⟨c', r', -, hexec⟩
  · exact .refl _
  · exact later_of_exec hexec

end Later

/-! ## Locks -/

def Locked (K : Kernel) (ino : Nat) : Prop := ∃ fd o, K.opened fd = some o ∧ o.ino = ino ∧ o.lock ≠ none

section Locks

variable {may : SysCall → Bool} {K K' : Kernel} {i ino : Nat}

/-- A description that has changed, but is not less locked. -/
theorem Locked.setOpen (h : Locked K ino) {fd : Nat} {o x : OpenFile} (ho : K.opened fd = some o)
    (hino : x.ino = o.ino) (hlock : o.lock ≠ none → x.lock ≠ none) : Locked (K.setOpen fd (some x)) ino := by
  obtain ⟨g, y, hy, hyino, hylock⟩ := h
  by_cases hg : g = fd
  · subst hg
    rw [ho] at hy
    obtain rfl := Option.some.inj hy
    exact ⟨g, x, setOpen_opened_self, hino.trans hyino, hlock hylock⟩
  · exact ⟨g, y, (setOpen_opened_of_ne hg).trans hy, hyino, hylock⟩

/-- New descriptors do not matter. -/
theorem Locked.of_opened (h : Locked K ino) (hwf : K.Wf)
    (hopened : ∀ fd, fd ≠ K.nextFd → K'.opened fd = K.opened fd) : Locked K' ino := by
  obtain ⟨g, y, hy, hyino, hylock⟩ := h
  exact ⟨g, y, (hopened g (Nat.ne_of_lt (hwf.fd_lt g y hy))).trans hy, hyino, hylock⟩

theorem opened_makeFolders (K : Kernel) (cur ps : List Text) : (K.makeFolders cur ps).opened = K.opened := by
  induction ps generalizing K cur with
  | nil => rfl
  | cons p ps ih =>
      rw [makeFolders]
      split
      · split
        · exact ih K _
        · exact ih _ _
      · rfl

/-- A lock stays until its descriptor is unlocked or closed. -/
theorem Locked.exec (h : Locked K ino) (hwf : K.Wf) {c : SysCall} (hc : keepsLocks c = true) {r : c.Reply}
    (hexec : exec i c K = some (r, K')) : Locked K' ino := by
  cases c with
  -- the two calls that `keepsLocks` excludes
  | close | unlock => cases hc
  | stat | fstat | readdir | source | subtract =>
      obtain ⟨-, rfl⟩ := Prod.mk.inj (Option.some.inj hexec)
      exact h
  | mkdirP path =>
      obtain ⟨-, rfl⟩ := Prod.mk.inj (Option.some.inj hexec)
      exact h.of_opened hwf fun fd _ => congrFun (opened_makeFolders K _ _) fd
  | create path =>
      rcases exec_create hexec with ⟨-, rfl⟩ | ⟨loc, -, -, -, rfl⟩
      · exact h
      · exact h.of_opened hwf fun fd hfd => addFile_opened_of_ne hfd
  | openRead path =>
      rcases exec_openRead hexec with ⟨-, -, rfl⟩ | ⟨n, -, -, rfl⟩
      · exact h
      · exact h.of_opened hwf fun fd hfd => addOpen_opened_of_ne hfd
  | openWrite path =>
      rcases exec_openWrite hexec with ⟨-, -, rfl⟩ | ⟨n, -, -, rfl⟩
      · exact h
      · exact h.of_opened hwf fun fd hfd => addOpen_opened_of_ne hfd
  | remove path =>
      rcases exec_remove hexec with ⟨-, rfl⟩ | ⟨loc, -, -, -, -, rfl⟩
      · exact h
      · exact h
  | flock fd mode nonblock =>
      cases ho : K.opened fd with
      | none =>
          rw [Kernel.exec, ho] at hexec
          obtain ⟨-, rfl⟩ := Prod.mk.inj (Option.some.inj hexec)
          exact h
      | some o =>
          rcases exec_flock ho hexec with ⟨-, -, rfl⟩ | ⟨-, rfl, -⟩
          · -- the descriptor has a lock afterwards, if perhaps another one
            exact h.setOpen ho rfl fun _ => Option.some_ne_none mode
          · exact h
  | futimes fd | seek fd pos | read fd count =>
      rw [Kernel.exec] at hexec
      split at hexec
      · obtain ⟨-, rfl⟩ := Prod.mk.inj (Option.some.inj hexec)
        exact h
      next o ho =>
        obtain ⟨-, rfl⟩ := Prod.mk.inj (Option.some.inj hexec)
        first
        | exact h
        | exact h.setOpen ho rfl id
  | write fd bytes =>
      cases ho : K.opened fd with
      | none =>
          rw [Kernel.exec, ho] at hexec
          obtain ⟨-, rfl⟩ := Prod.mk.inj (Option.some.inj hexec)
          exact h
      | some o =>
          rcases exec_write ho hexec with ⟨-, -, rfl⟩ | ⟨-, rfl⟩
          · have hdata : Locked (K.setData o.ino (overwrite (K.data o.ino) o.offset bytes)) ino := h
            exact hdata.setOpen ho rfl id
          · exact h

theorem Locked.does (h : Locked K ino) (hwf : K.Wf) {c : SysCall} (hc : keepsLocks c = true) {r : c.Reply}
    (hdoes : Does may i c K r K') : Locked K' ino := by
  rcases exec_of_does hdoes with rfl | ⟨c', r', hc', hexec⟩
  · exact h
  · exact h.exec hwf (hc'.trans hc) hexec

end Locks

end Kernel

end Skunk.Posix
