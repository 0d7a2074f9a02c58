import Skunk.BesUtils.CacheBalance
import Skunk.Posix.Faults

/-!
# A put that fails

`put` and `put_data` create the file of the key first, and give up at the first thing that goes wrong. What
they have created stays. So a put that returns false leaves the cache as it was only if it has not come to
the file at all: `put_unchanged_iff` says which calls must not fail.
-/

namespace Skunk.BesUtils

open Effect Posix

/-! ## Records -/

/-- The calls of a run. -/
abbrev Record : Type := List (Issued sysCalls Kernel)

/-- The call made a new file. -/
def creates : Issued sysCalls Kernel → Bool
  | ⟨_, .create _, r, _⟩ => r.isSome
  | _ => false

/-- After such a call a put gives up: a lock is refused, the source cannot be opened, or not everything is
written. -/
def givesUp : Issued sysCalls Kernel → Bool
  | ⟨_, .flock _ _ _, r, _⟩ => !r
  | ⟨_, .source _, r, _⟩ => r.isNone
  | ⟨_, .write _ bytes, r, _⟩ => r ≠ some bytes.length
  | _ => false

/-- The answer of an `lseek`. -/
def sought : Issued sysCalls Kernel → Option Bool
  | ⟨_, .seek _ _, r, _⟩ => some r
  | _ => none

/-- There was no reason to give up. Of the two `lseek`s, only the last counts: where the first fails, the
recorded size is read as zero. -/
def Completes (t : Record) : Prop :=
  (∀ e ∈ t, givesUp e = false) ∧ (t.filterMap sought).getLast? ≠ some false

theorem completes_append_left {t t' : Record} (h : t.filterMap sought = []) :
    Completes (t ++ t') ↔ (∀ e ∈ t, givesUp e = false) ∧ Completes t' := by
  rw [Completes, Completes, List.forall_mem_append, List.filterMap_append, h, List.nil_append, and_assoc]

theorem completes_cons {e : Issued sysCalls Kernel} {t : Record} (h : sought e = none) :
    Completes (e :: t) ↔ givesUp e = false ∧ Completes t := by
  rw [← List.singleton_append, completes_append_left (by simp [h]), List.forall_mem_singleton]

/-- Where there are more `lseek`s, the ones before do not count. -/
theorem completes_append {t t' : Record} (h : t'.filterMap sought ≠ []) :
    Completes (t ++ t') ↔ (∀ e ∈ t, givesUp e = false) ∧ Completes t' := by
  rw [Completes, Completes, List.forall_mem_append, List.filterMap_append,
    List.getLast?_append_of_ne_nil _ h, and_assoc]

/-- Calls around that are no reason to give up do not matter. -/
theorem completes_middle {t t' t'' : Record} (h : ∀ e ∈ t ++ t'', givesUp e = false)
    (hsought : (t ++ t'').filterMap sought = []) : Completes (t ++ (t' ++ t'')) ↔ Completes t' := by
  rw [List.forall_mem_append] at h
  rw [List.filterMap_append, List.append_eq_nil_iff] at hsought
  rw [completes_append_left hsought.1, Completes, Completes, List.forall_mem_append, List.filterMap_append,
    hsought.2, List.append_nil]
  exact ⟨fun hall => ⟨hall.2.1.1, hall.2.2⟩, fun hall => ⟨h.1, ⟨hall.1, h.2⟩, hall.2⟩⟩

section Runs

variable {may : SysCall → Bool} {i : Nat} {α β : Type} {K K' : Kernel} {t : Record}

theorem runs_call_bind {c : SysCall} {k : c.Reply → Sys β} {b : β} :
    (call c >>= k).Runs (Kernel.Does may i) K t b K' ↔
      ∃ r K₁ t', Kernel.Does may i c K r K₁ ∧ t = ⟨K, c, r, K₁⟩ :: t' ∧
        (k r).Runs (Kernel.Does may i) K₁ t' b K' := Iff.rfl

/-- A run with the lock of the cache: without a descriptor there are no calls, and where the lock is refused
there is nothing between the first call and the last. -/
theorem runs_withCacheLock {fd : Option Nat} {fail a : α} {body : Nat → Sys α}
    (h : (withCacheLock fd fail body).Runs (Kernel.Does may i) K t a K') :
    fd = none ∧ t = [] ∧ a = fail ∧ K' = K ∨
      ∃ f locked K₁ t' K₂ r, fd = some f ∧ Kernel.Does may i (.flock f .exclusive false) K locked K₁ ∧
        t = ⟨K, .flock f .exclusive false, locked, K₁⟩ :: (t' ++ [⟨K₂, .unlock f, r, K'⟩]) ∧
        Kernel.Does may i (.unlock f) K₂ r K' ∧
        (locked = true ∧ (body f).Runs (Kernel.Does may i) K₁ t' a K₂ ∨
          locked = false ∧ t' = [] ∧ a = fail ∧ K₂ = K₁) := by
  cases fd with
  | none =>
      obtain ⟨rfl, rfl, rfl⟩ := h
      exact .inl ⟨rfl, rfl, rfl, rfl⟩
  | some f =>
      obtain ⟨locked, K₁, rest, hlock, rfl, h⟩ := h
      refine .inr ⟨f, locked, K₁, ?_⟩
      -- what is left is the call that unlocks
      have hunlock : ∀ {K₂ : Kernel} {b : α} {t₂ : Record},
          (do
            let _ ← call (.unlock f)
            pure b : Sys α).Runs (Kernel.Does may i) K₂ t₂ a K' →
          ∃ r, t₂ = [⟨K₂, .unlock f, r, K'⟩] ∧ Kernel.Does may i (.unlock f) K₂ r K' ∧ a = b := by
        rintro K₂ b t₂ ⟨r, K₃, t₃, hdoes, rfl, rfl, rfl, rfl⟩
        exact ⟨r, rfl, hdoes, rfl⟩
      cases locked with
      | false =>
          obtain ⟨r, rfl, hdoes, rfl⟩ := hunlock h
          exact ⟨[], K₁, r, rfl, hlock, rfl, hdoes, .inr ⟨rfl, rfl, rfl, rfl⟩⟩
      | true =>
          have hrest : (do
            let result ← body f
            let _ ← call (.unlock f)
            pure result : Sys α).Runs (Kernel.Does may i) K₁ rest a K' := h
          obtain ⟨t', t₂, b, K₂, rfl, hbody, h⟩ := Prog.runs_bind.mp hrest
          obtain ⟨r, rfl, hdoes, rfl⟩ := hunlock h
          exact ⟨t', K₂, r, rfl, hlock, rfl, hdoes, .inl ⟨rfl, hbody⟩⟩

/-- A run with an item ends with the call that closes it. -/
theorem runs_withItem {fd : Nat} {body : Sys α} {a : α}
    (h : (withItem fd body).Runs (Kernel.Does may i) K t a K') :
    ∃ t' K₁ r, t = t' ++ [⟨K₁, .close fd, r, K'⟩] ∧ body.Runs (Kernel.Does may i) K t' a K₁ ∧
      Kernel.Does may i (.close fd) K₁ r K' := by
  obtain ⟨t', t₂, b, K₁, rfl, hbody, r, K₂, t₃, hdoes, rfl, rfl, rfl, rfl⟩ := Prog.runs_bind.mp h
  exact ⟨t', K₁, r, rfl, hbody, hdoes⟩

/-! ## What a put does once the file is there -/

/-- The calls of `get_cache_info_size`. -/
theorem every_getCacheInfoSize {P : SysCall → Prop} {info : Nat} (hseek : P (.seek info 0))
    (hread : P (.read info 8)) : (getCacheInfoSize info).Every P := by
  refine ⟨hseek, fun found => ?_⟩
  cases found with
  | false => exact trivial
  | true =>
      refine ⟨hread, fun bytes => ?_⟩
      cases bytes <;> exact trivial

/-- The calls of `update_cache_info_size`. -/
theorem every_updateCacheInfoSize {P : SysCall → Prop} {info size : Nat} (hseek : P (.seek info 0))
    (hwrite : ∀ bytes, P (.write info bytes)) : (updateCacheInfoSize info size).Every P := by
  refine ⟨hseek, fun found => ?_⟩
  cases found with
  | false => exact trivial
  | true => exact ⟨hwrite _, fun _ => trivial⟩

theorem runs_lockTheItem {fd : Nat} {mode : FlockMode} {nonblock result : Bool}
    (h : (lockTheItem fd mode nonblock).Runs (Kernel.Does may i) K t result K') :
    (result = true ↔ ∀ e ∈ t, givesUp e = false) ∧ t.filterMap sought = [] := by
  obtain ⟨locked, K₁, rest, -, rfl, hrest⟩ := runs_call_bind.mp h
  cases locked with
  | false =>
      obtain ⟨rfl, rfl, rfl⟩ := hrest
      simp [givesUp, sought]
  | true =>
      obtain ⟨r, K₂, rest, -, rfl, rfl, rfl, rfl⟩ := hrest
      simp [givesUp, sought]

/-- Reading the recorded size is never a reason to give up. -/
theorem runs_getCacheInfoSize {fd size : Nat}
    (h : (getCacheInfoSize fd).Runs (Kernel.Does may i) K t size K') : ∀ e ∈ t, givesUp e = false := by
  obtain ⟨found, K₁, rest, -, rfl, hrest⟩ := runs_call_bind.mp h
  cases found with
  | false =>
      obtain ⟨rfl, rfl, rfl⟩ := hrest
      simp [givesUp]
  | true =>
      obtain ⟨bytes, K₂, rest, -, rfl, hsize⟩ := runs_call_bind.mp hrest
      cases bytes with
      | none =>
          obtain ⟨rfl, rfl, rfl⟩ := hsize
          simp [givesUp]
      | some bytes =>
          obtain ⟨rfl, rfl, rfl⟩ := hsize
          simp [givesUp]

theorem runs_getFileSize {fd size : Nat} (h : (getFileSize fd).Runs (Kernel.Does may i) K t size K') :
    ∀ e ∈ t, givesUp e = false := by
  obtain ⟨r, K₁, rest, -, rfl, rfl, rfl, rfl⟩ := runs_call_bind.mp h
  simp [givesUp]

/-- The size is recorded if neither the `lseek` nor the `write` fails. -/
theorem runs_updateCacheInfoSize {fd size : Nat} {result : Bool}
    (h : (updateCacheInfoSize fd size).Runs (Kernel.Does may i) K t result K') :
    (result = true ↔ Completes t) ∧ t.filterMap sought ≠ [] := by
  obtain ⟨found, K₁, rest, -, rfl, hrest⟩ := runs_call_bind.mp h
  cases found with
  | false =>
      obtain ⟨rfl, rfl, rfl⟩ := hrest
      simp [Completes, givesUp, sought]
  | true =>
      obtain ⟨written, K₂, rest, -, rfl, rfl, rfl, rfl⟩ := runs_call_bind.mp hrest
      have hlast : ([⟨K, .seek fd 0, true, K₁⟩, ⟨K₁, .write fd (encodeSize size), written, K'⟩] :
          Record).filterMap sought = [true] := rfl
      rw [Completes, hlast]
      simp [givesUp]

theorem runs_addFileSize {info fd : Nat} {result : Bool}
    (h : (FileCache.addFileSize info fd).Runs (Kernel.Does may i) K t result K') :
    result = true ↔ Completes t := by
  obtain ⟨t₁, _, recorded, K₁, rfl, hget, hrest⟩ := Prog.runs_bind.mp h
  obtain ⟨t₂, t₃, size, K₂, rfl, hsize, hupdate⟩ := Prog.runs_bind.mp hrest
  have hquiet := runs_getCacheInfoSize hget
  have hquiet' := runs_getFileSize hsize
  obtain ⟨hresult, hsought⟩ := runs_updateCacheInfoSize hupdate
  rw [← List.append_assoc, completes_append hsought, List.forall_mem_append, hresult]
  exact (and_iff_right ⟨hquiet, hquiet'⟩).symm

/-- The copy is complete if every `write` is. -/
theorem runs_copyPieces {fd : Nat} {pieces : List (List UInt8)} {result : Bool}
    (h : (FileCache.copyPieces fd pieces).Runs (Kernel.Does may i) K t result K') :
    (result = true ↔ ∀ e ∈ t, givesUp e = false) ∧ t.filterMap sought = [] := by
  induction pieces generalizing K t with
  | nil =>
      obtain ⟨rfl, rfl, rfl⟩ := h
      simp
  | cons buf rest ih =>
      obtain ⟨written, K₁, t', -, rfl, hrest⟩ := runs_call_bind.mp h
      by_cases hall : written = some buf.length
      · rw [if_pos hall] at hrest
        obtain ⟨hresult, hsought⟩ := ih hrest
        refine ⟨?_, hsought⟩
        rw [hresult, List.forall_mem_cons]
        exact (and_iff_right (by simp [givesUp, hall])).symm
      · rw [if_neg hall] at hrest
        obtain ⟨rfl, rfl, rfl⟩ := hrest
        simp [givesUp, sought, hall]

end Runs

/-! ## The two puts -/

/-- A put that does `rest` with the file that it has created and locked. -/
def creating (fc : FileCache) (key : Text) (rest : Nat → Nat → Sys Bool) : Sys Bool :=
  withCacheLock fc.cacheInfoFd false fun info => do
    let created ← fc.createKey key
    match created with
    | none => pure false
    | some fd => withItem fd do
      let locked ← lockTheItem fd .exclusive false
      if locked then rest info fd
      else pure false

/-- The calls after the file is there leave the names of files alone. -/
def keepsNames : SysCall → Bool
  | .create _ | .remove _ | .mkdirP _ => false
  | _ => true

section Creating

variable {may : SysCall → Bool} {i : Nat} {K K' : Kernel} {t : Record} {fc : FileCache} {key : Text}
  {rest : Nat → Nat → Sys Bool} {result : Bool}

theorem files_of_does {c : SysCall} {r : c.Reply} (hc : keepsNames c = true)
    (h : Kernel.Does may i c K r K') : K'.files = K.files := by
  cases c with
  | create | remove | mkdirP => cases hc
  | write fd bytes =>
      cases ho : K.opened fd with
      | none =>
          have hnone : ∀ bytes', Kernel.exec i (.write fd bytes') K = some (none, K) := by
            intro bytes'
            rw [Kernel.exec, ho]
          rcases Kernel.does_iff.mp h with h | ⟨-, _ | n, h⟩
          · rw [hnone] at h
            obtain ⟨-, rfl⟩ := Prod.mk.inj (Option.some.inj h)
            rfl
          · obtain ⟨-, rfl⟩ := Prod.mk.inj (Option.some.inj h)
            rfl
          · rw [Kernel.falter, hnone, ite_self] at h
            obtain ⟨-, rfl⟩ := Prod.mk.inj (Option.some.inj h)
            rfl
      | some o =>
          rcases Kernel.does_write ho h with ⟨-, rfl⟩ | ⟨n, -, -, -, rfl⟩
          · rfl
          · rfl
  | _ => exact (Kernel.unchanged_of_does rfl h).files

/-- A put leaves the cache as it was exactly if it has made no file or has completed what it does. -/
theorem creating_unchanged_iff
    (hcompletes : ∀ {info fd t result} {K K' : Kernel},
      (rest info fd).Runs (Kernel.Does may i) K t result K' → (result = true ↔ Completes t))
    (hnames : ∀ info fd, (rest info fd).Every fun c => keepsNames c = true)
    (h : (creating fc key rest).Runs (Kernel.Does may i) K t result K') :
    (result = false → Unchanged K K') ↔ (∀ e ∈ t, creates e = false) ∨ Completes t := by
  rcases runs_withCacheLock h with
    ⟨-, rfl, rfl, rfl⟩ | ⟨info, locked, K₁, t', K₂, r, -, hlock, rfl, hunlock, hbody⟩
  · exact iff_of_true (fun _ => .refl _) (.inl nofun)
  have hunchanged₁ := Kernel.unchanged_of_does rfl hlock
  have hunchanged₂ := Kernel.unchanged_of_does rfl hunlock
  rcases hbody with ⟨rfl, hbody⟩ | ⟨rfl, rfl, rfl, rfl⟩
  swap
  · refine iff_of_true (fun _ => hunchanged₁.trans hunchanged₂) (.inl ?_)
    simp [creates]
  obtain ⟨created, K₃, t₃, hcreate, rfl, hrest⟩ := runs_call_bind.mp hbody
  rcases Kernel.does_create hcreate with ⟨rfl, rfl⟩ | ⟨loc, -, -, rfl, rfl⟩
  · -- no file was made
    obtain ⟨rfl, rfl, rfl⟩ := hrest
    refine iff_of_true (fun _ => hunchanged₁.trans hunchanged₂) (.inl ?_)
    simp [creates]
  -- a file was made, and nothing removes it again
  obtain ⟨t₄, K₄, r', rfl, hitem, hclose⟩ := runs_withItem hrest
  obtain ⟨t₅, t₆, locked, K₅, rfl, hitemLock, hif⟩ := Prog.runs_bind.mp hitem
  obtain ⟨hlocked, hsought⟩ := runs_lockTheItem hitemLock
  have hevery : (do
      let locked ← lockTheItem K₁.nextFd .exclusive false
      if locked then rest info K₁.nextFd else pure false : Sys Bool).Every
        fun c => keepsNames c = true := by
    refine ⟨rfl, fun locked => ?_⟩
    cases locked with
    | false => exact trivial
    | true => exact ⟨rfl, fun _ => hnames info K₁.nextFd⟩
  have hfiles : K₄.files = (loc, K₁.nextIno) :: K₁.files :=
    hitem.preserves hevery (fun c K r K' hc hdoes hK => (files_of_does hc hdoes).trans hK) rfl
  have hfiles' : K'.files = (loc, K₁.nextIno) :: K.files := by
    rw [hunchanged₂.files, (Kernel.unchanged_of_does rfl hclose).files, hfiles, hunchanged₁.files]
  have hchanged : ¬ Unchanged K K' := by
    intro hsame
    have hlength := congrArg List.length (hfiles'.symm.trans hsame.files)
    simp at hlength
  have hresult : result = true ↔ Completes (t₅ ++ t₆) := by
    rw [completes_append_left hsought, ← hlocked]
    cases locked with
    | false =>
        obtain ⟨rfl, rfl, rfl⟩ := hif
        simp
    | true => simpa using hcompletes hif
  have hshape : (⟨K, .flock info .exclusive false, true, K₁⟩ ::
      (⟨K₁, .create (fc.keyFileName key), some K₁.nextFd, K₁.addFile i loc⟩ ::
        (t₅ ++ t₆ ++ [⟨K₄, .close K₁.nextFd, r', K₂⟩]) ++ [⟨K₂, .unlock info, r, K'⟩]) : Record) =
      [⟨K, .flock info .exclusive false, true, K₁⟩,
        ⟨K₁, .create (fc.keyFileName key), some K₁.nextFd, K₁.addFile i loc⟩] ++
          ((t₅ ++ t₆) ++ [⟨K₄, .close K₁.nextFd, r', K₂⟩, ⟨K₂, .unlock info, r, K'⟩]) := by
    simp
  have hcreates : ¬ ∀ e ∈ ([⟨K, .flock info .exclusive false, true, K₁⟩,
      ⟨K₁, .create (fc.keyFileName key), some K₁.nextFd, K₁.addFile i loc⟩] ++
        ((t₅ ++ t₆) ++ [⟨K₄, .close K₁.nextFd, r', K₂⟩, ⟨K₂, .unlock info, r, K'⟩]) : Record),
      creates e = false := by
    intro hall
    have hnone := hall _ (List.mem_append_left _ (List.mem_cons_of_mem _ List.mem_cons_self))
    cases hnone
  rw [hshape, or_iff_right hcreates, completes_middle (by simp [givesUp]) rfl, ← hresult]
  cases result with
  | false => simp [hchanged]
  | true => simp

end Creating

/-- What `put` does with the file: it copies the source and counts the bytes. -/
def copying (fileName : Text) (info fd : Nat) : Sys Bool := do
  let source ← call (.source fileName)
  match source with
  | none => pure false
  | some source =>
    let copied ← FileCache.copyPieces fd
      (FileCache.reads (min megabyte source.size) source.given.length source.given)
    if copied then FileCache.addFileSize info fd
    else pure false

/-- What `put_data` does with the file. -/
def writing (data : List UInt8) (info fd : Nat) : Sys Bool := do
  let written ← call (.write fd data)
  if written = some data.length then FileCache.addFileSize info fd
  else pure false

theorem put_eq (fc : FileCache) (key fileName : Text) :
    fc.put key fileName = creating fc key (copying fileName) := rfl

theorem putData_eq (fc : FileCache) (key : Text) (data : List UInt8) :
    fc.putData key data = creating fc key (writing data) := rfl

section Puts

variable {may : SysCall → Bool} {i : Nat} {K K' : Kernel} {t : Record} {info fd : Nat} {result : Bool}

/-- What is written in one piece is counted once it is written. -/
theorem runs_writing {data : List UInt8}
    (h : (writing data info fd).Runs (Kernel.Does may i) K t result K') : result = true ↔ Completes t := by
  obtain ⟨written, K₁, t', -, rfl, hrest⟩ := runs_call_bind.mp h
  rw [completes_cons rfl]
  by_cases hall : written = some data.length
  · rw [if_pos hall] at hrest
    rw [runs_addFileSize hrest]
    exact (and_iff_right (by simp [givesUp, hall])).symm
  · rw [if_neg hall] at hrest
    obtain ⟨rfl, rfl, rfl⟩ := hrest
    simp [givesUp, hall]

/-- What is copied is counted once all pieces are written. -/
theorem runs_copying {fileName : Text}
    (h : (copying fileName info fd).Runs (Kernel.Does may i) K t result K') : result = true ↔ Completes t := by
  obtain ⟨source, K₁, t', -, rfl, hrest⟩ := runs_call_bind.mp h
  rw [completes_cons rfl]
  cases source with
  | none =>
      obtain ⟨rfl, rfl, rfl⟩ := hrest
      simp [givesUp]
  | some bytes =>
      obtain ⟨t₁, t₂, copied, K₂, rfl, hcopy, hif⟩ := Prog.runs_bind.mp hrest
      obtain ⟨hcopied, hsought⟩ := runs_copyPieces hcopy
      rw [and_iff_right (by rfl), completes_append_left hsought, ← hcopied]
      cases copied with
      | false =>
          obtain ⟨rfl, rfl, rfl⟩ := hif
          simp
      | true =>
          rw [runs_addFileSize hif]
          exact (and_iff_right rfl).symm

theorem keepsNames_addFileSize (info fd : Nat) :
    (FileCache.addFileSize info fd).Every fun c => keepsNames c = true := by
  have hget : (getCacheInfoSize info).Every fun c => keepsNames c = true := every_getCacheInfoSize rfl rfl
  exact hget.bind fun recorded => ⟨rfl, fun size => every_updateCacheInfoSize rfl fun _ => rfl⟩

theorem keepsNames_writing (data : List UInt8) (info fd : Nat) :
    (writing data info fd).Every fun c => keepsNames c = true := by
  refine ⟨rfl, fun written => ?_⟩
  show (if written = some data.length then FileCache.addFileSize info fd else pure false : Sys Bool).Every _
  split
  · exact keepsNames_addFileSize info fd
  · exact trivial

theorem keepsNames_copyPieces (fd : Nat) (pieces : List (List UInt8)) :
    (FileCache.copyPieces fd pieces).Every fun c => keepsNames c = true := by
  induction pieces with
  | nil => exact trivial
  | cons buf rest ih =>
      refine ⟨rfl, fun written => ?_⟩
      show (if written = some buf.length then FileCache.copyPieces fd rest else pure false : Sys Bool).Every _
      split
      · exact ih
      · exact trivial

theorem keepsNames_copying (fileName : Text) (info fd : Nat) :
    (copying fileName info fd).Every fun c => keepsNames c = true := by
  refine ⟨rfl, fun source => ?_⟩
  cases source with
  | none => exact trivial
  | some bytes =>
      refine (keepsNames_copyPieces fd _).bind fun copied => ?_
      cases copied with
      | false => exact trivial
      | true => exact keepsNames_addFileSize info fd

end Puts

/-- Whatever goes wrong, a put that returns false leaves all files as they were if and only if it has not
made the file of the key, or nothing has made it give up after that. -/
theorem put_unchanged_iff (may : SysCall → Bool) (i : Nat) (fc : FileCache) (key : Text) {K K' : Kernel}
    {t : Record} {result : Bool} :
    (∀ fileName, (fc.put key fileName).Runs (Kernel.Does may i) K t result K' →
      ((result = false → Unchanged K K') ↔ (∀ e ∈ t, creates e = false) ∨ Completes t)) ∧
    (∀ data, (fc.putData key data).Runs (Kernel.Does may i) K t result K' →
      ((result = false → Unchanged K K') ↔ (∀ e ∈ t, creates e = false) ∨ Completes t)) := by
  constructor
  · intro fileName h
    rw [put_eq] at h
    exact creating_unchanged_iff (fun hrest => runs_copying hrest) (keepsNames_copying fileName) h
  · intro data h
    rw [putData_eq] at h
    exact creating_unchanged_iff (fun hrest => runs_writing hrest) (keepsNames_writing data) h

/-- A process that has initialised its cache, in the directory `/c`. -/
def initialised : FileCache := ⟨['/', 'c'], 0, 0, some 0⟩

/-- Where the file of the key cannot be made, nothing is changed. -/
theorem put_unchanged_iff_refused : ∃ t K',
    (initialised.putData ['a'] [1, 2]).Runs (Kernel.Does (fun _ => true) 0) (Usage.emptyCache.addOpen 0 2) t
      false K' ∧ Unchanged (Usage.emptyCache.addOpen 0 2) K' := by
  have hplay : (Prog.play (Kernel.attempt (fun _ => true) 0) [none, some .refused, none]
      (initialised.putData ['a'] [1, 2]) (Usage.emptyCache.addOpen 0 2)).any (fun out =>
        !out.2.1 && out.1.all fun e => !creates e) = true := by decide
  obtain ⟨t, result, K', hrun, hq⟩ := Prog.exists_runs hplay
  rw [Bool.and_eq_true, Bool.not_eq_true', List.all_eq_true] at hq
  obtain ⟨rfl, hcreates⟩ := hq
  refine ⟨t, K', hrun, ((put_unchanged_iff _ 0 initialised ['a']).2 [1, 2] hrun).mpr (.inl ?_) rfl⟩
  intro e he
  exact (Bool.not_eq_true' _).mp (hcreates e he)

/-- A process initialises its cache and puts a file that is not there: `put` returns false, and `get` of the
key returns true. -/
theorem put_leaves_file : ∃ t₀ s K₁ t K' t₂ fd K₂,
    (CacheOp.run (.initCache ['/', 'c'] 10 5) .new).Runs (Kernel.Does (fun _ => true) 0) Usage.oneFolder t₀ s
      K₁ ∧
    (s.cache.put ['a'] ['x']).Runs (Kernel.Does (fun _ => true) 0) K₁ t false K' ∧ ¬ Unchanged K₁ K' ∧
    (s.cache.get ['a']).Runs (Kernel.Does (fun _ => true) 0) K' t₂ (true, some fd) K₂ := by
  have hplay : (Prog.play (Kernel.attempt (fun _ => true) 0) (List.replicate 3 none)
      (CacheOp.run (.initCache ['/', 'c'] 10 5) .new) Usage.oneFolder).any (fun out =>
        (Prog.play (Kernel.attempt (fun _ => true) 0) (List.replicate 7 none)
          (out.2.1.cache.put ['a'] ['x']) out.2.2).any fun out' =>
            (!out'.2.1 && decide (out'.2.2.files ≠ out.2.2.files)) &&
            (Prog.play (Kernel.attempt (fun _ => true) 0) (List.replicate 5 none)
              (out.2.1.cache.get ['a']) out'.2.2).any fun out'' => decide (out''.2.1 = (true, some 2))) =
      true := by decide
  obtain ⟨t₀, s, K₁, hinit, hq⟩ := Prog.exists_runs hplay
  obtain ⟨t, result, K', hput, hq'⟩ := Prog.exists_runs hq
  rw [Bool.and_eq_true, Bool.and_eq_true, Bool.not_eq_true', decide_eq_true_eq] at hq'
  obtain ⟨⟨rfl, hfiles⟩, hq''⟩ := hq'
  obtain ⟨t₂, _, K₂, hget, hq₂⟩ := Prog.exists_runs hq''
  obtain rfl := of_decide_eq_true hq₂
  exact ⟨t₀, s, K₁, t, K', t₂, 2, K₂, hinit, hput, fun hsame => hfiles hsame.files, hget⟩

end Skunk.BesUtils
