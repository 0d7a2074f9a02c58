import Mathlib.Data.List.Basic
import Skunk.Posix.Path

/-!
# `GlobalMetadataStore::insert_xml_base`

A stored document is written out with a new value of the `xml:base` attribute of its first tag.
`insertXmlBase` reads the beginning of the file into a buffer, looks there for the end of the tag and for
the letters `xml:base`, writes that part with the new value, and passes on the rest.

What it looks for it finds by single characters, and only in the buffer. So it takes a `>` in the value of
an attribute for the end of the tag, and the letters in the name or the value of another attribute for the
one it is after. `insertXmlBase_withBase_iff` says for which documents all goes well.

Characters stand for bytes.
-/

namespace Skunk.BesUtils

open Skunk.Posix

/-! ## Reading -/

/-- A file open for reading. The `k`-th read gives one byte more than `limits k` at most, or fails. -/
structure Descriptor where
  rest : Text
  limits : Nat → Option Nat
  reads : Nat

def Descriptor.read (fd : Descriptor) (size : Nat) : Option (Text × Descriptor) :=
  (fd.limits fd.reads).map fun limit =>
    (fd.rest.take (min size (limit + 1)),
      { fd with rest := fd.rest.drop (min size (limit + 1)), reads := fd.reads + 1 })

/-- No read fails. -/
def Descriptor.Readable (fd : Descriptor) : Prop := ∀ k, (fd.limits k).isSome

/-- `BESInternalError`, or a read of the buffer at or past the number of bytes in it. -/
inductive StoreError
  | internal (message : String)
  | pastEnd
  deriving DecidableEq, Repr

theorem Descriptor.read_rest {fd fd' : Descriptor} {size : Nat} {buf : Text}
    (h : fd.read size = some (buf, fd')) : fd.rest = buf ++ fd'.rest := by
  unfold Descriptor.read at h
  cases hlimit : fd.limits fd.reads with
  | none => rw [hlimit] at h; cases h
  | some limit =>
      rw [hlimit] at h
      obtain ⟨rfl, rfl⟩ := Prod.mk.inj (Option.some.inj h)
      exact (List.take_append_drop _ _).symm

/-- `transfer_bytes`: what is written, and the file afterwards. -/
def transferBytes (fd : Descriptor) : Except StoreError (Text × Descriptor) :=
  match _h : fd.read (16 * 1024) with
  | none => .error (.internal "Could not read dds from the metadata store.")
  | some (buf, fd') =>
    if _hbuf : buf = [] then .ok ([], fd')
    else
      match transferBytes fd' with
      | .error e => .error e
      | .ok (out, fd'') => .ok (buf ++ out, fd'')
termination_by fd.rest.length
decreasing_by
  rw [Descriptor.read_rest _h, List.length_append]
  have := List.length_pos_iff.mpr _hbuf
  omega

/-! ## The scan -/

def xmlBaseLiteral : Text := "xml:base".toList

/-- How many characters of the literal are matched after one more character. -/
def nextMatch (j : Nat) (c : Char) : Nat := if xmlBaseLiteral[j]? = some c then j + 1 else 0

/-- How the scan of the tag ends, and where. -/
inductive ScanEnd
  | tagEnd (i : Nat)
  | literal (i : Nat)
  | chunkEnd
  deriving DecidableEq, Repr

/-- The scan of the tag: from the place `i` on, with `j` characters of the literal matched. -/
def scanTag : Nat → Nat → Text → ScanEnd
  | _, _, [] => .chunkEnd
  | i, j, c :: rest =>
    if c = '>' then .tagEnd i
    else if j = xmlBaseLiteral.length then .literal i
    else scanTag (i + 1) (nextMatch j c) rest

/-- `while (buf[i++] != c)`: the place behind the next `c`. -/
def skipPast (c : Char) : Nat → Text → Option Nat
  | _, [] => none
  | i, x :: xs => if x = c then some (i + 1) else skipPast c (i + 1) xs

/-- The three loops over `="..."`. -/
def skipValue (buf : Text) (i : Nat) : Option Nat := do
  let i ← skipPast '=' i (buf.drop i)
  let i ← skipPast '"' i (buf.drop i)
  skipPast '"' i (buf.drop i)

/-- What stands in front of a new attribute's value. -/
def baseOpening : Text := " xml:base=\"".toList

/-- What stands in front of an old attribute's new value. -/
def valueOpening : Text := "=\"".toList

/-- The new attribute. -/
def baseText (xmlBase : Text) : Text := baseOpening ++ xmlBase ++ ['"']

def valueText (xmlBase : Text) : Text := valueOpening ++ xmlBase ++ ['"']

/-- What is written of the buffer. -/
def spliceBuffer (buf xmlBase : Text) : Except StoreError Text :=
  match skipPast '>' 0 buf with
  | none => .error .pastEnd
  | some s =>
    match scanTag s 0 (buf.drop s) with
    | .tagEnd i =>
      .ok (buf.take s ++ (buf.drop s).take (i - s) ++ baseText xmlBase ++ buf.drop i)
    | .literal i =>
      match skipValue buf i with
      | none => .error .pastEnd
      | some i' =>
        .ok (buf.take s ++ (buf.drop s).take (i - s) ++ valueText xmlBase ++ buf.drop i')
    | .chunkEnd => .ok (buf.take s)

def insertXmlBase (fd : Descriptor) (xmlBase : Text) : Except StoreError (Text × Descriptor) :=
  match fd.read 1024 with
  | none => .error (.internal "Could not read dds from the metadata store.")
  | some (buf, fd') =>
    if buf = [] then .ok ([], fd')
    else
      match spliceBuffer buf xmlBase with
      | .error e => .error e
      | .ok out =>
        match transferBytes fd' with
        | .error e => .error e
        | .ok (rest, fd'') => .ok (out ++ rest, fd'')

/-- `write_response_helper` with the file that it has locked, if it could. -/
def writeResponseHelper (locked : Option Descriptor) (itemName : String) (xmlBase : Text) :
    Except StoreError Text :=
  match locked with
  | none => .error (.internal ("Could not open '" ++ itemName ++ "' in the metadata store."))
  | some fd =>
    match insertXmlBase fd xmlBase with
    | .error e => .error e
    | .ok (out, fd') =>
      match transferBytes fd' with
      | .error e => .error e
      | .ok (rest, _) => .ok (out ++ rest)

/-! ## What is read -/

/-- How much the next read of so many bytes gives. -/
def Descriptor.chunk (fd : Descriptor) (size : Nat) : Nat :=
  min size ((fd.limits fd.reads).getD 0 + 1)

theorem Descriptor.Readable.read {fd : Descriptor} (h : fd.Readable) (size : Nat) :
    ∃ fd', fd.read size = some (fd.rest.take (fd.chunk size), fd') ∧
      fd'.rest = fd.rest.drop (fd.chunk size) ∧ fd'.Readable := by
  obtain ⟨limit, hlimit⟩ := Option.isSome_iff_exists.mp (h fd.reads)
  refine ⟨{ fd with rest := fd.rest.drop (fd.chunk size), reads := fd.reads + 1 }, ?_, rfl, h⟩
  simp [Descriptor.read, chunk, hlimit]

/-- All that is left of a file is passed on. -/
theorem transferBytes_ok {fd : Descriptor} (h : fd.Readable) :
    ∃ fd', transferBytes fd = .ok (fd.rest, fd') ∧ fd'.rest = [] ∧ fd'.Readable := by
  induction hn : fd.rest.length using Nat.strong_induction_on generalizing fd with
  | _ n ih =>
      obtain ⟨fd', hread, hrest, hreadable⟩ := h.read (16 * 1024)
      have hpos : 0 < fd.chunk (16 * 1024) := by
        unfold Descriptor.chunk
        omega
      rw [transferBytes]
      split
      next hnone => rw [hread] at hnone; cases hnone
      next buf fd₁ hsome =>
        rw [hread] at hsome
        obtain ⟨rfl, rfl⟩ := Prod.mk.inj (Option.some.inj hsome)
        by_cases hbuf : fd.rest.take (fd.chunk (16 * 1024)) = []
        · -- nothing came: the file is at its end
          have hnil : fd.rest = [] := by
            rcases List.take_eq_nil_iff.mp hbuf with hzero | hnil
            · omega
            · exact hnil
          rw [dif_pos hbuf]
          refine ⟨fd', by rw [hnil], ?_, hreadable⟩
          rw [hrest, hnil, List.drop_nil]
        · have hlt : fd'.rest.length < n := by
            have hne : fd.rest ≠ [] := fun hnil => hbuf (by rw [hnil, List.take_nil])
            have := List.length_pos_iff.mpr hne
            rw [hrest, List.length_drop]
            omega
          obtain ⟨fd'', htransfer, hnil, hreadable'⟩ := ih _ hlt hreadable rfl
          rw [dif_neg hbuf, htransfer]
          refine ⟨fd'', ?_, hnil, hreadable'⟩
          dsimp only
          rw [hrest, List.take_append_drop]

/-- What is written: what comes of the buffer, and the rest of the file. -/
theorem insertXmlBase_ok_iff {fd : Descriptor} (h : fd.Readable) (hne : fd.rest ≠ [])
    (xmlBase out : Text) : (∃ fd', insertXmlBase fd xmlBase = .ok (out, fd')) ↔
      ∃ start, spliceBuffer (fd.rest.take (fd.chunk 1024)) xmlBase = .ok start ∧
        out = start ++ fd.rest.drop (fd.chunk 1024) := by
  obtain ⟨fd', hread, hrest, hreadable⟩ := h.read 1024
  obtain ⟨fd'', htransfer, -, -⟩ := transferBytes_ok hreadable
  have hbuf : fd.rest.take (fd.chunk 1024) ≠ [] := by
    rw [Ne, List.take_eq_nil_iff, not_or]
    refine ⟨?_, hne⟩
    unfold Descriptor.chunk
    omega
  unfold insertXmlBase
  rw [hread]
  dsimp only
  rw [if_neg hbuf]
  cases spliceBuffer (fd.rest.take (fd.chunk 1024)) xmlBase with
  | error e => simp
  | ok start =>
      dsimp only
      rw [htransfer, ← hrest]
      simp [eq_comm]

theorem insertXmlBase_rest {fd fd' : Descriptor} (h : fd.Readable) {xmlBase out : Text}
    (hok : insertXmlBase fd xmlBase = .ok (out, fd')) : fd'.rest = [] ∧ fd'.Readable := by
  obtain ⟨fd₁, hread, hrest, hreadable⟩ := h.read 1024
  obtain ⟨fd₂, htransfer, hnil, hreadable₂⟩ := transferBytes_ok hreadable
  unfold insertXmlBase at hok
  rw [hread] at hok
  dsimp only at hok
  split at hok
  next hbuf =>
    cases hok
    refine ⟨?_, hreadable⟩
    rcases List.take_eq_nil_iff.mp hbuf with hzero | hnil
    · unfold Descriptor.chunk at hzero
      omega
    · rw [hrest, hnil, List.drop_nil]
  · split at hok
    · cases hok
    · rw [htransfer] at hok
      cases hok
      exact ⟨hnil, hreadable₂⟩

/-- The response is what `insert_xml_base` writes; nothing is left for the transfer behind it. -/
theorem writeResponseHelper_ok_iff {fd : Descriptor} (h : fd.Readable) (itemName : String)
    (xmlBase out : Text) : writeResponseHelper (some fd) itemName xmlBase = .ok out ↔
      ∃ fd', insertXmlBase fd xmlBase = .ok (out, fd') := by
  unfold writeResponseHelper
  dsimp only
  cases hok : insertXmlBase fd xmlBase with
  | error e => simp
  | ok written =>
      obtain ⟨out', fd'⟩ := written
      obtain ⟨hnil, hreadable⟩ := insertXmlBase_rest h hok
      obtain ⟨fd'', htransfer, -, -⟩ := transferBytes_ok hreadable
      rw [hnil] at htransfer
      dsimp only
      rw [htransfer]
      simp

/-! ## Scanning a buffer that holds the beginning of a text -/

/-- The end that a scan comes to if it may look at the places in front of `n` only. -/
def ScanEnd.within (n : Nat) : ScanEnd → ScanEnd
  | .tagEnd i => if i < n then .tagEnd i else .chunkEnd
  | .literal i => if i < n then .literal i else .chunkEnd
  | .chunkEnd => .chunkEnd

theorem scanTag_le {i j : Nat} {text : Text} {g : Nat}
    (h : scanTag i j text = .tagEnd g ∨ scanTag i j text = .literal g) : i ≤ g := by
  induction text generalizing i j with
  | nil => rcases h with h | h <;> cases h
  | cons c text ih =>
      rw [scanTag] at h
      split at h
      · rcases h with h | h <;> cases h
        exact le_rfl
      · split at h
        · rcases h with h | h <;> cases h
          exact le_rfl
        · have := ih h
          omega

theorem scanTag_take (i j : Nat) (text : Text) (k : Nat) :
    scanTag i j (text.take k) = (scanTag i j text).within (i + k) := by
  induction text generalizing i j k with
  | nil => simp [scanTag, ScanEnd.within]
  | cons c text ih =>
      cases k with
      | zero =>
          -- nothing may be looked at, and what is found lies at `i` or behind it
          rw [List.take_zero, scanTag]
          cases hend : scanTag i j (c :: text) with
          | tagEnd g =>
              have := scanTag_le (.inl hend)
              rw [ScanEnd.within, if_neg (by omega)]
          | literal g =>
              have := scanTag_le (.inr hend)
              rw [ScanEnd.within, if_neg (by omega)]
          | chunkEnd => rfl
      | succ k =>
          rw [List.take_succ_cons, scanTag, scanTag]
          split
          · rw [ScanEnd.within, if_pos (by omega)]
          · split
            · rw [ScanEnd.within, if_pos (by omega)]
            · rw [ih, Nat.add_assoc, Nat.add_comm 1 k]

theorem skipPast_lt {c : Char} {i e : Nat} {text : Text} (h : skipPast c i text = some e) : i < e := by
  induction text generalizing i with
  | nil => cases h
  | cons x text ih =>
      rw [skipPast] at h
      split at h
      · cases h
        omega
      · have := ih h
        omega

theorem skipPast_take {c : Char} {i e : Nat} {text : Text} {k : Nat} :
    skipPast c i (text.take k) = some e ↔ skipPast c i text = some e ∧ e ≤ i + k := by
  induction text generalizing i k with
  | nil => simp [skipPast]
  | cons x text ih =>
      cases k with
      | zero =>
          rw [List.take_zero]
          constructor
          · intro h
            cases h
          · rintro ⟨h, hle⟩
            have := skipPast_lt h
            omega
      | succ k =>
          rw [List.take_succ_cons, skipPast, skipPast]
          split
          · constructor
            · intro h
              cases h
              exact ⟨rfl, by omega⟩
            · exact And.left
          · rw [ih, Nat.add_assoc, Nat.add_comm 1 k]

theorem skipPast_append {c : Char} {a : Text} (ha : c ∉ a) (i : Nat) (b : Text) :
    skipPast c i (a ++ c :: b) = some (i + a.length + 1) := by
  induction a generalizing i with
  | nil => exact if_pos rfl
  | cons x a ih =>
      rw [List.mem_cons, not_or] at ha
      rw [List.cons_append, skipPast, if_neg (Ne.symm ha.1), ih ha.2, List.length_cons]
      congr 1
      omega

/-- A search in the buffer from a place in it. -/
theorem skipPast_buffer {c : Char} {i e n : Nat} {text : Text} (hi : i ≤ n) :
    skipPast c i ((text.take n).drop i) = some e ↔ skipPast c i (text.drop i) = some e ∧ e ≤ n := by
  rw [List.drop_take, skipPast_take, Nat.add_sub_cancel' hi]

theorem skipValue_lt {text : Text} {i e : Nat} (h : skipValue text i = some e) : i + 3 ≤ e := by
  simp only [skipValue, Option.bind_eq_bind, Option.bind_eq_some_iff] at h
  obtain ⟨i₁, h₁, i₂, h₂, h₃⟩ := h
  have := skipPast_lt h₁
  have := skipPast_lt h₂
  have := skipPast_lt h₃
  omega

theorem skipValue_buffer {i e n : Nat} {text : Text} (hi : i ≤ n) :
    skipValue (text.take n) i = some e ↔ skipValue text i = some e ∧ e ≤ n := by
  simp only [skipValue, Option.bind_eq_bind, Option.bind_eq_some_iff]
  constructor
  · rintro ⟨i₁, h₁, i₂, h₂, h₃⟩
    obtain ⟨h₁, hle₁⟩ := (skipPast_buffer hi).mp h₁
    obtain ⟨h₂, hle₂⟩ := (skipPast_buffer hle₁).mp h₂
    obtain ⟨h₃, hle₃⟩ := (skipPast_buffer hle₂).mp h₃
    exact ⟨⟨i₁, h₁, i₂, h₂, h₃⟩, hle₃⟩
  · rintro ⟨⟨i₁, h₁, i₂, h₂, h₃⟩, hle⟩
    have hlt₂ := skipPast_lt h₂
    have hlt₃ := skipPast_lt h₃
    exact ⟨i₁, (skipPast_buffer hi).mpr ⟨h₁, by omega⟩, i₂,
      (skipPast_buffer (by omega)).mpr ⟨h₂, by omega⟩, (skipPast_buffer (by omega)).mpr ⟨h₃, hle⟩⟩

/-- What comes of a text whose first `n` bytes are in the buffer. -/
def Writes (text : Text) (n : Nat) (xmlBase out : Text) : Prop :=
  ∃ start, spliceBuffer (text.take n) xmlBase = .ok start ∧ out = start ++ text.drop n

/-- What is written, said with the whole text. -/
def Written (text : Text) (n s : Nat) (xmlBase out : Text) : ScanEnd → Prop
  | .tagEnd i => out = text.take i ++ baseText xmlBase ++ text.drop i
  | .literal i => ∃ i', skipValue text i = some i' ∧ i' ≤ n ∧
      out = text.take i ++ valueText xmlBase ++ text.drop i'
  | .chunkEnd => out = text.take s ++ text.drop n

theorem within_le {n s i : Nat} {text : Text}
    (h : (scanTag s 0 text).within n = .tagEnd i ∨ (scanTag s 0 text).within n = .literal i) :
    s ≤ i ∧ i < n := by
  cases hend : scanTag s 0 text with
  | chunkEnd => rw [hend] at h; rcases h with h | h <;> cases h
  | tagEnd g =>
      have hle := scanTag_le (.inl hend)
      rw [hend, ScanEnd.within] at h
      split at h <;> rcases h with h | h <;> cases h
      exact ⟨hle, by assumption⟩
  | literal g =>
      have hle := scanTag_le (.inr hend)
      rw [hend, ScanEnd.within] at h
      split at h <;> rcases h with h | h <;> cases h
      exact ⟨hle, by assumption⟩

theorem writes_iff {text : Text} {s : Nat} (hs : skipPast '>' 0 text = some s) (n : Nat)
    (xmlBase out : Text) : Writes text n xmlBase out ↔
      s ≤ n ∧ Written text n s xmlBase out ((scanTag s 0 (text.drop s)).within n) := by
  -- what is left of the buffer and the rest of the file are one text
  have hdrop : ∀ i, i ≤ n → (text.take n).drop i ++ text.drop n = text.drop i := by
    intro i hi
    have hn : text.drop n = (text.drop i).drop (n - i) := by
      rw [List.drop_drop, Nat.add_sub_cancel' hi]
    rw [List.drop_take, hn, List.take_append_drop]
  have htake : ∀ i, s ≤ i → i ≤ n →
      (text.take n).take s ++ ((text.take n).drop s).take (i - s) = text.take i := by
    intro i hsi hi
    rw [← List.take_add, Nat.add_sub_cancel' hsi, List.take_take, Nat.min_eq_left hi]
  unfold Writes spliceBuffer
  by_cases hsn : s ≤ n
  · have hskip : skipPast '>' 0 (text.take n) = some s := skipPast_take.mpr ⟨hs, by omega⟩
    -- in the buffer the scan ends where it ends in the text, if that is inside
    have hscan : scanTag s 0 ((text.take n).drop s) = (scanTag s 0 (text.drop s)).within n := by
      rw [List.drop_take, scanTag_take, Nat.add_sub_cancel' hsn]
    rw [hskip]
    dsimp only
    rw [hscan]
    cases hend : (scanTag s 0 (text.drop s)).within n with
    | tagEnd i =>
        obtain ⟨hsi, hin⟩ := within_le (.inl hend)
        simp only [Except.ok.injEq, exists_eq_left', htake i hsi hin.le, Written, hsn, true_and,
          List.append_assoc, hdrop i hin.le]
    | literal i =>
        obtain ⟨hsi, hin⟩ := within_le (.inr hend)
        have hvalue : ∀ i', skipValue (text.take n) i = some i' ↔ skipValue text i = some i' ∧ i' ≤ n :=
          fun i' => skipValue_buffer hin.le
        simp only [htake i hsi hin.le, Written, hsn, true_and]
        constructor
        · rintro ⟨start, hstart, rfl⟩
          split at hstart
          · cases hstart
          next i' hi' =>
            obtain ⟨hskipped, hle⟩ := (hvalue i').mp hi'
            obtain rfl := Except.ok.inj hstart
            exact ⟨i', hskipped, hle, by rw [List.append_assoc, hdrop i' hle]⟩
        · rintro ⟨i', hskipped, hle, rfl⟩
          rw [(hvalue i').mpr ⟨hskipped, hle⟩]
          exact ⟨_, rfl, by rw [← hdrop i' hle, List.append_assoc _ _ (text.drop n)]⟩
    | chunkEnd =>
        simp only [Except.ok.injEq, exists_eq_left', Written, hsn, true_and, List.take_take,
          Nat.min_eq_left]
  · -- the declaration does not end in the buffer
    have hskip : skipPast '>' 0 (text.take n) = none := by
      rw [Option.eq_none_iff_forall_ne_some]
      intro e he
      obtain ⟨he, hle⟩ := skipPast_take.mp he
      rw [hs] at he
      cases he
      omega
    rw [hskip]
    simp [hsn]

/-! ## Where a scan ends -/

/-- Neither a `>` nor, after the whole literal has been matched, any further character. -/
def Quiet : Nat → Text → Prop
  | _, [] => True
  | j, c :: text => c ≠ '>' ∧ j ≠ xmlBaseLiteral.length ∧ Quiet (nextMatch j c) text

instance decidableQuiet : (j : Nat) → (text : Text) → Decidable (Quiet j text)
  | _, [] => isTrue trivial
  | j, c :: text =>
    have := decidableQuiet (nextMatch j c) text
    inferInstanceAs (Decidable (_ ∧ _ ∧ _))

theorem scanTag_quiet {j : Nat} {text : Text} (h : Quiet j text) (i : Nat) (rest : Text) :
    scanTag i j (text ++ rest) = scanTag (i + text.length) (text.foldl nextMatch j) rest := by
  induction text generalizing i j with
  | nil => rfl
  | cons c text ih =>
      obtain ⟨htag, hliteral, hquiet⟩ := h
      rw [List.cons_append, scanTag, if_neg htag, if_neg hliteral, ih hquiet, List.foldl_cons,
        List.length_cons]
      congr 1
      omega

/-- Otherwise the scan ends in the text. -/
theorem scanTag_not_quiet {j : Nat} {text : Text} (h : ¬ Quiet j text) (i : Nat) (rest : Text) :
    ∃ a c b, text = a ++ c :: b ∧ (c = '>' ∧ scanTag i j (text ++ rest) = .tagEnd (i + a.length) ∨
      scanTag i j (text ++ rest) = .literal (i + a.length)) := by
  induction text generalizing i j with
  | nil => exact absurd trivial h
  | cons c text ih =>
      rw [List.cons_append, scanTag]
      by_cases htag : c = '>'
      · exact ⟨[], c, text, rfl, .inl ⟨htag, if_pos htag⟩⟩
      by_cases hliteral : j = xmlBaseLiteral.length
      · refine ⟨[], c, text, rfl, .inr ?_⟩
        rw [if_neg htag, if_pos hliteral]
        rfl
      · have hquiet : ¬ Quiet (nextMatch j c) text := fun hquiet => h ⟨htag, hliteral, hquiet⟩
        obtain ⟨a, d, b, rfl, hend⟩ := ih hquiet (i + 1)
        refine ⟨c :: a, d, b, rfl, ?_⟩
        rw [if_neg htag, if_neg hliteral, List.length_cons, Nat.add_comm a.length, ← Nat.add_assoc]
        exact hend

/-- White space. -/
def Blank (c : Char) : Prop := c = ' ' ∨ c = '\t' ∨ c = '\r' ∨ c = '\n'

instance (c : Char) : Decidable (Blank c) := inferInstanceAs (Decidable (_ ∨ _))

def Blanks (text : Text) : Prop := ∀ c ∈ text, Blank c

instance (text : Text) : Decidable (Blanks text) := List.decidableBAll _ text

theorem nextMatch_blank {c : Char} (hc : Blank c) (j : Nat) : nextMatch j c = 0 := by
  have hne : xmlBaseLiteral.filter (fun x => Blank x) = [] := by decide
  apply if_neg
  intro hmatch
  exact List.filter_eq_nil_iff.mp hne c (List.mem_of_getElem? hmatch) (by simpa using hc)

@[simp] theorem length_baseText (xmlBase : Text) : (baseText xmlBase).length = xmlBase.length + 12 := by
  have hopening : baseOpening.length = 11 := by decide
  rw [baseText, List.length_append, List.length_append, hopening, List.length_singleton]
  omega

@[simp] theorem length_valueText (xmlBase : Text) :
    (valueText xmlBase).length = xmlBase.length + 3 := by
  have hopening : valueOpening.length = 2 := by decide
  rw [valueText, List.length_append, List.length_append, hopening, List.length_singleton]
  omega

/-! ## A tag without the attribute -/

section
variable {start tag rest : Text} {n : Nat}

/-- If the scan runs out of the buffer, what was scanned is lost. -/
theorem written_chunkEnd_length {text xmlBase out : Text} {s : Nat} (hsn : s ≤ n)
    (h : Written text n s xmlBase out .chunkEnd) : out.length ≤ text.length := by
  obtain rfl := h
  simp only [List.length_append, List.length_take, List.length_drop]
  omega

theorem writes_tagEnd_iff (hstart : skipPast '>' 0 (start ++ (tag ++ '>' :: rest)) = some start.length) :
    (∀ v, Writes (start ++ (tag ++ '>' :: rest)) n v (start ++ (tag ++ (baseText v ++ '>' :: rest)))) ↔
      Quiet 0 tag ∧ (start ++ tag).length < n := by
  simp only [writes_iff hstart, List.drop_left]
  by_cases hquiet : Quiet 0 tag
  · have hend : scanTag start.length 0 (tag ++ '>' :: rest) = .tagEnd (start.length + tag.length) := by
      rw [scanTag_quiet hquiet, scanTag]
      exact if_pos rfl
    rw [hend, ScanEnd.within, List.length_append]
    by_cases hn : start.length + tag.length < n
    · rw [if_pos hn]
      simp only [hquiet, hn, and_self, iff_true]
      intro v
      refine ⟨by omega, ?_⟩
      rw [Written, ← List.length_append, ← List.append_assoc start tag ('>' :: rest), List.take_left,
        List.drop_left]
      simp only [List.append_assoc]
    · rw [if_neg hn]
      simp only [hn, and_false, iff_false]
      intro h
      have hlength := written_chunkEnd_length (h []).1 (h []).2
      simp only [List.length_append, List.length_cons, length_baseText, List.length_nil] at hlength
      omega
  · simp only [hquiet, false_and, iff_false]
    intro h
    obtain ⟨a, c, b, rfl, hend⟩ := scanTag_not_quiet hquiet start.length ('>' :: rest)
    obtain ⟨hsn, hwritten⟩ := h []
    rcases hend with ⟨rfl, hend⟩ | hend
    · rw [hend, ScanEnd.within] at hwritten
      split at hwritten
      · -- the attribute stands in front of an earlier `>`
        have htext : start ++ (a ++ '>' :: b ++ '>' :: rest) = (start ++ a) ++ '>' :: (b ++ '>' :: rest) := by
          simp
        rw [Written, ← List.length_append, htext, List.take_left, List.drop_left] at hwritten
        simp only [List.append_assoc, List.append_cancel_left_eq, List.cons_append] at hwritten
        cases hwritten
      · have hlength := written_chunkEnd_length hsn hwritten
        simp only [List.length_append, List.length_cons, length_baseText, List.length_nil] at hlength
        omega
    · rw [hend, ScanEnd.within] at hwritten
      split at hwritten
      · obtain ⟨i', hi', -, hout⟩ := hwritten
        have hlt := skipValue_lt hi'
        have hlength := congrArg List.length hout
        simp only [List.length_append, List.length_cons, List.length_take, List.length_drop,
          length_baseText, length_valueText, List.length_nil] at hlength
        omega
      · have hlength := written_chunkEnd_length hsn hwritten
        simp only [List.length_append, List.length_cons, length_baseText, List.length_nil] at hlength
        omega

end

/-! ## A tag with the attribute -/

/-- The text behind the name of an attribute. -/
def eqText (beforeEq afterEq value : Text) : Text :=
  beforeEq ++ '=' :: (afterEq ++ '"' :: (value ++ ['"']))

theorem eqText_nil (value : Text) : eqText [] [] value = valueText value := by
  have hopening : valueOpening = ['=', '"'] := by decide
  rw [valueText, hopening]
  rfl

@[simp] theorem length_eqText (beforeEq afterEq value : Text) :
    (eqText beforeEq afterEq value).length =
      beforeEq.length + afterEq.length + value.length + 3 := by
  simp only [eqText, List.length_append, List.length_cons, List.length_nil]
  omega

theorem scanTag_literal {c : Char} (hc : c ≠ '>') (i : Nat) (rest : Text) :
    scanTag i 0 (xmlBaseLiteral ++ c :: rest) = .literal (i + xmlBaseLiteral.length) := by
  have hquiet : Quiet 0 xmlBaseLiteral := by decide
  have hmatched : xmlBaseLiteral.foldl nextMatch 0 = xmlBaseLiteral.length := by decide
  rw [scanTag_quiet hquiet, hmatched, scanTag, if_neg hc, if_pos rfl]

/-- White space sets the matcher back. -/
theorem foldl_nextMatch_blank {tag : Text} {c : Char} (hc : Blank c) :
    (tag ++ [c]).foldl nextMatch 0 = 0 := by
  rw [List.foldl_append]
  exact nextMatch_blank hc _

/-- The three loops go over one attribute value. -/
theorem skipValue_eq {text beforeEq afterEq value rest : Text} {i : Nat} (heq : '=' ∉ beforeEq)
    (hquote : '"' ∉ afterEq) (hvalue : '"' ∉ value)
    (hdrop : text.drop i = eqText beforeEq afterEq value ++ rest) :
    skipValue text i = some (i + (eqText beforeEq afterEq value).length) := by
  have hstep : ∀ {c : Char} {k : Nat} {a b : Text}, c ∉ a → text.drop k = a ++ c :: b →
      skipPast c k (text.drop k) = some (k + a.length + 1) ∧ text.drop (k + a.length + 1) = b := by
    intro c k a b ha hk
    refine ⟨by rw [hk, skipPast_append ha], ?_⟩
    have hsplit : a ++ c :: b = (a ++ [c]) ++ b := by simp
    have hlength : k + a.length + 1 = k + (a ++ [c]).length := by
      rw [List.length_append, List.length_singleton]
      omega
    rw [hlength, ← List.drop_drop, hk, hsplit, List.drop_left]
  have hopen : text.drop i = beforeEq ++ '=' :: (afterEq ++ '"' :: (value ++ '"' :: rest)) := by
    simp [hdrop, eqText]
  obtain ⟨h₁, hopen⟩ := hstep heq hopen
  obtain ⟨h₂, hopen⟩ := hstep hquote hopen
  obtain ⟨h₃, -⟩ := hstep hvalue hopen
  simp only [skipValue, h₁, Option.bind_eq_bind, Option.bind_some, h₂, h₃, Option.some.injEq,
    length_eqText]
  omega

section
variable {start tag rest beforeEq afterEq value : Text} {n : Nat}

/-- The scan ends behind the name of the attribute. -/
theorem scanTag_attribute (hquiet : Quiet 0 tag) (hblank : ∃ front c, tag = front ++ [c] ∧ Blank c)
    (hbefore : Blanks beforeEq) (i : Nat) :
    scanTag i 0 (tag ++ (xmlBaseLiteral ++ (eqText beforeEq afterEq value ++ rest))) =
      .literal (i + tag.length + xmlBaseLiteral.length) := by
  have hmatch : tag.foldl nextMatch 0 = 0 := by
    obtain ⟨front, c, rfl, hc⟩ := hblank
    exact foldl_nextMatch_blank hc
  have hnext : ∃ c behind, eqText beforeEq afterEq value ++ rest = c :: behind ∧ c ≠ '>' := by
    cases beforeEq with
    | nil => exact ⟨'=', _, rfl, by decide⟩
    | cons c cs =>
        refine ⟨c, _, rfl, ?_⟩
        rintro rfl
        have hnot : ¬ Blank '>' := by decide
        exact hnot (hbefore _ List.mem_cons_self)
  obtain ⟨c, behind, hcons, hc⟩ := hnext
  rw [scanTag_quiet hquiet, hmatch, hcons, scanTag_literal hc]

/-- Over a literal `xml:base`, every value is written right exactly if no bracket comes in between, nothing
stands around the `=`, and the whole attribute is in the buffer. -/
theorem writes_literal_iff (hblank : ∃ front c, tag = front ++ [c] ∧ Blank c)
    (hbefore : Blanks beforeEq) (hafter : Blanks afterEq) (hvalue : '"' ∉ value)
    (hstart : skipPast '>' 0
      (start ++ (tag ++ (xmlBaseLiteral ++ (eqText beforeEq afterEq value ++ rest)))) =
        some start.length) :
    (∀ v, Writes (start ++ (tag ++ (xmlBaseLiteral ++ (eqText beforeEq afterEq value ++ rest)))) n v
        (start ++ (tag ++ (xmlBaseLiteral ++ (eqText beforeEq afterEq v ++ rest))))) ↔
      Quiet 0 tag ∧ beforeEq = [] ∧ afterEq = [] ∧
        (start ++ (tag ++ (xmlBaseLiteral ++ valueText value))).length ≤ n := by
  simp only [writes_iff hstart, List.drop_left]
  by_cases hquiet : Quiet 0 tag
  · have heq : '=' ∉ beforeEq := fun hmem => absurd (hbefore _ hmem) (by decide)
    have hquote : '"' ∉ afterEq := fun hmem => absurd (hafter _ hmem) (by decide)
    have hsplit : ∀ v, start ++ (tag ++ (xmlBaseLiteral ++ (eqText beforeEq afterEq v ++ rest))) =
        (start ++ tag ++ xmlBaseLiteral) ++ (eqText beforeEq afterEq v ++ rest) := by simp
    have hlength : start.length + tag.length + xmlBaseLiteral.length =
        (start ++ tag ++ xmlBaseLiteral).length := by simp only [List.length_append]
    have hskip := skipValue_eq heq hquote hvalue
      (by rw [hsplit, List.drop_left] : (start ++ (tag ++ (xmlBaseLiteral ++
        (eqText beforeEq afterEq value ++ rest)))).drop (start ++ tag ++ xmlBaseLiteral).length = _)
    rw [scanTag_attribute hquiet hblank hbefore, ScanEnd.within, hlength]
    by_cases hn : (start ++ tag ++ xmlBaseLiteral).length < n
    · rw [if_pos hn]
      constructor
      · intro h
        obtain ⟨-, i', hi', hle, hout⟩ := h []
        rw [hskip] at hi'
        obtain rfl := Option.some.inj hi'
        -- the new text is as long as it should be, so no white space was dropped
        have hlengths := congrArg List.length hout
        simp only [List.length_append, List.length_take, List.length_drop, length_eqText,
          length_valueText, List.length_nil] at hlengths hle ⊢
        have hbeforeEq : beforeEq.length = 0 := by omega
        have hafterEq : afterEq.length = 0 := by omega
        exact ⟨hquiet, List.eq_nil_of_length_eq_zero hbeforeEq, List.eq_nil_of_length_eq_zero hafterEq,
          by omega⟩
      · rintro ⟨-, rfl, rfl, hle⟩ v
        simp only [List.length_append, length_valueText] at hn hle
        refine ⟨by omega, _, hskip, ?_, ?_⟩
        · simp only [List.length_append, length_eqText, List.length_nil]
          omega
        · rw [hsplit value, List.take_left, ← List.drop_drop, List.drop_left, List.drop_left, hsplit v,
            eqText_nil]
          simp only [List.append_assoc]
    · rw [if_neg hn]
      constructor
      · intro h
        obtain ⟨hsn, hwritten⟩ := h
          (start ++ (tag ++ (xmlBaseLiteral ++ (eqText beforeEq afterEq value ++ rest))))
        have hshort := written_chunkEnd_length hsn hwritten
        simp only [List.length_append, length_eqText] at hshort
        omega
      · rintro ⟨-, -, -, hle⟩
        simp only [List.length_append, length_valueText] at hn hle
        omega
  · simp only [hquiet, false_and, iff_false]
    intro h
    obtain ⟨a, c, b, rfl, hend⟩ := scanTag_not_quiet hquiet start.length
      (xmlBaseLiteral ++ (eqText beforeEq afterEq value ++ rest))
    by_cases hn : start.length + a.length < n
    · rcases hend with ⟨-, hend⟩ | hend
      · -- an attribute was put in, and the value of the old one kept
        rw [hend, ScanEnd.within, if_pos hn] at h
        have hlengths := congrArg List.length (h []).2
        simp only [List.length_append, List.length_cons, List.length_take, List.length_drop,
          length_eqText, length_baseText, List.length_nil] at hlengths
        omega
      · -- another value was replaced, so the new text depends on the new value too early
        rw [hend, ScanEnd.within, if_pos hn] at h
        have hthird : ∀ x, (b ++ xmlBaseLiteral)[1]? = some x := by
          intro x
          obtain ⟨-, i', -, -, hout⟩ := h [x]
          have hfront : ∀ behind, start ++ ((a ++ c :: b) ++ behind) =
              (start ++ a) ++ c :: (b ++ behind) := by simp
          rw [← List.length_append, hfront, hfront, List.take_left, List.append_assoc (start ++ a),
            List.append_cancel_left_eq] at hout
          have hvalueText : valueText [x] = ['=', '"', x, '"'] := by
            have hopening : valueOpening = ['=', '"'] := by decide
            rw [valueText, hopening]
            rfl
          have hthird := congrArg (fun t => t[2]?) hout
          rw [hvalueText] at hthird
          change (b ++ (xmlBaseLiteral ++ _))[1]? = some x at hthird
          rw [← List.append_assoc, List.getElem?_append_left] at hthird
          · exact hthird
          · rw [List.length_append]
            have hliteral : xmlBaseLiteral.length = 8 := by decide
            omega
        have hx := hthird 'x'
        rw [hthird 'y'] at hx
        cases hx
    · have hchunk : (scanTag start.length 0 ((a ++ c :: b) ++ (xmlBaseLiteral ++
          (eqText beforeEq afterEq value ++ rest)))).within n = .chunkEnd := by
        rcases hend with ⟨-, hend⟩ | hend <;> rw [hend, ScanEnd.within, if_neg hn]
      obtain ⟨hsn, hwritten⟩ := h (start ++ ((a ++ c :: b) ++ (xmlBaseLiteral ++
        (eqText beforeEq afterEq value ++ rest))))
      rw [hchunk] at hwritten
      have hshort := written_chunkEnd_length hsn hwritten
      simp only [List.length_append, List.length_cons, length_eqText] at hshort
      omega

end

/-! ## Documents -/

def NameChar (c : Char) : Prop := ¬ Blank c ∧ c ∉ ['=', '"', '<', '>', '/', '&']

instance (c : Char) : Decidable (NameChar c) := inferInstanceAs (Decidable (_ ∧ _))

def IsName (name : Text) : Prop := name ≠ [] ∧ ∀ c ∈ name, NameChar c

instance (name : Text) : Decidable (IsName name) :=
  have : Decidable (∀ c ∈ name, NameChar c) := List.decidableBAll _ name
  inferInstanceAs (Decidable (_ ∧ _))

/-- An attribute of a tag, with the white space in front of it and around its `=`. -/
structure Attribute where
  space : Text
  name : Text
  beforeEq : Text
  afterEq : Text
  value : Text
  space_ok : space ≠ [] ∧ Blanks space
  name_ok : IsName name
  beforeEq_ok : Blanks beforeEq
  afterEq_ok : Blanks afterEq
  value_ok : '"' ∉ value ∧ '<' ∉ value

def Attribute.withValue (a : Attribute) (value : Text) : Text :=
  a.space ++ (a.name ++ eqText a.beforeEq a.afterEq value)

def Attribute.text (a : Attribute) : Text := a.withValue a.value

/-- A document of the store: the prolog, the start tag `Dataset` with its attributes, and what comes
then. -/
structure Document where
  prolog : Text
  gap : Text
  attributes : List Attribute
  tail : Text
  rest : Text
  prolog_ok : '>' ∉ prolog
  gap_ok : Blanks gap
  tail_ok : Blanks tail
  one_base : (attributes.filter (fun a => a.name = xmlBaseLiteral)).length ≤ 1

namespace Document

variable (d : Document)

/-- The prolog, with its brackets. -/
def head : Text := "<?".toList ++ d.prolog ++ "?>".toList

def tagName : Text := d.gap ++ "<Dataset".toList

def text : Text :=
  d.head ++ (d.tagName ++ (d.attributes.flatMap Attribute.text ++ (d.tail ++ '>' :: d.rest)))

/-- The text of the document with another value of `xml:base`, or with that attribute at the end of the
tag if it has none. -/
def withBase (xmlBase : Text) : Text :=
  if ∃ a ∈ d.attributes, a.name = xmlBaseLiteral then
    d.head ++ (d.tagName ++ (d.attributes.flatMap (fun a =>
      if a.name = xmlBaseLiteral then a.withValue xmlBase else a.text) ++ (d.tail ++ '>' :: d.rest)))
  else
    d.head ++ (d.tagName ++ (d.attributes.flatMap Attribute.text ++
      (d.tail ++ (baseText xmlBase ++ '>' :: d.rest))))

/-- The attributes in front of `xml:base`, and those from it on. -/
def beforeBase : List Attribute := d.attributes.takeWhile (fun a => a.name ≠ xmlBaseLiteral)

def fromBase : List Attribute := d.attributes.dropWhile (fun a => a.name ≠ xmlBaseLiteral)

/-- The tag in front of the name `xml:base`, or in front of the `>` if it has no such attribute. -/
def scanned : Text :=
  d.tagName ++ (d.beforeBase.flatMap Attribute.text ++ match d.fromBase with
    | [] => d.tail
    | b :: _ => b.space)

/-- The buffer holds what has to be in it, and the scan finds there what it is after. -/
def Fits (n : Nat) : Prop :=
  Quiet 0 d.scanned ∧ match d.fromBase with
    | [] => (d.head ++ d.scanned).length < n
    | b :: _ => b.beforeEq = [] ∧ b.afterEq = [] ∧
        (d.head ++ (d.scanned ++ (xmlBaseLiteral ++ valueText b.value))).length ≤ n

variable {d}

theorem skipPast_head (behind : Text) : skipPast '>' 0 (d.head ++ behind) = some d.head.length := by
  have hopen : '>' ∉ "<?".toList ++ d.prolog ++ ['?'] := by
    have hbracket : '>' ∉ "<?".toList := by decide
    simp only [List.mem_append, not_or]
    exact ⟨⟨hbracket, d.prolog_ok⟩, by decide⟩
  have hclose : "?>".toList = ['?'] ++ ['>'] := by decide
  have hhead : d.head = ("<?".toList ++ d.prolog ++ ['?']) ++ ['>'] := by
    rw [head, hclose, List.append_assoc _ ['?']]
  have hlength : d.head.length = 0 + ("<?".toList ++ d.prolog ++ ['?']).length + 1 := by
    rw [hhead, List.length_append, List.length_singleton, Nat.zero_add]
  rw [hlength, ← skipPast_append hopen 0 behind, hhead, List.append_assoc]
  rfl

/-- No attribute stands for `xml:base` in front of the first one that does. -/
theorem beforeBase_name {a : Attribute} (ha : a ∈ d.beforeBase) : a.name ≠ xmlBaseLiteral := by
  simpa using List.mem_takeWhile_imp ha

theorem attributes_eq : d.attributes = d.beforeBase ++ d.fromBase :=
  (List.takeWhile_append_dropWhile).symm

theorem fromBase_cons {b : Attribute} {after : List Attribute} (h : d.fromBase = b :: after) :
    b.name = xmlBaseLiteral ∧ ∀ a ∈ after, a.name ≠ xmlBaseLiteral := by
  have hb : b.name = xmlBaseLiteral := by
    have hhead := List.head?_dropWhile_not (fun a : Attribute => decide (a.name ≠ xmlBaseLiteral))
      d.attributes
    change d.attributes.dropWhile (fun a => decide (a.name ≠ xmlBaseLiteral)) = b :: after at h
    rw [h] at hhead
    simpa using hhead
  refine ⟨hb, ?_⟩
  intro a ha hname
  have hone := d.one_base
  rw [attributes_eq, h, List.filter_append, List.filter_cons_of_pos (by simpa using hb)] at hone
  have hpos : 0 < (after.filter (fun a => decide (a.name = xmlBaseLiteral))).length :=
    List.length_pos_of_mem (List.mem_filter.mpr ⟨ha, by simpa using hname⟩)
  rw [List.length_append, List.length_cons] at hone
  omega

/-- Attributes that do not stand for `xml:base` are left as they are. -/
theorem flatMap_withBase {attributes : List Attribute} (h : ∀ a ∈ attributes, a.name ≠ xmlBaseLiteral)
    (xmlBase : Text) : (attributes.flatMap fun a =>
      if a.name = xmlBaseLiteral then a.withValue xmlBase else a.text) =
        attributes.flatMap Attribute.text := by
  rw [List.flatMap_def, List.flatMap_def]
  congr 1
  apply List.map_congr_left
  intro a ha
  exact if_neg (h a ha)

/-- A document without the attribute, and what it becomes. -/
theorem text_of_fromBase_nil (h : d.fromBase = []) :
    d.text = d.head ++ (d.scanned ++ '>' :: d.rest) ∧
      ∀ v, d.withBase v = d.head ++ (d.scanned ++ (baseText v ++ '>' :: d.rest)) := by
  have hall : d.attributes = d.beforeBase := by rw [attributes_eq, h, List.append_nil]
  have hnone : ¬ ∃ a ∈ d.attributes, a.name = xmlBaseLiteral := by
    rintro ⟨a, ha, hname⟩
    rw [hall] at ha
    exact beforeBase_name ha hname
  constructor
  · rw [text, scanned, h, ← hall]
    simp only [List.append_assoc]
  · intro v
    rw [withBase, if_neg hnone, scanned, h, ← hall]
    simp only [List.append_assoc]

/-- A document with the attribute, and what it becomes. -/
theorem text_of_fromBase_cons {b : Attribute} {after : List Attribute} (h : d.fromBase = b :: after) :
    d.text = d.head ++ (d.scanned ++ (xmlBaseLiteral ++ (eqText b.beforeEq b.afterEq b.value ++
        (after.flatMap Attribute.text ++ (d.tail ++ '>' :: d.rest))))) ∧
      ∀ v, d.withBase v = d.head ++ (d.scanned ++ (xmlBaseLiteral ++
        (eqText b.beforeEq b.afterEq v ++
          (after.flatMap Attribute.text ++ (d.tail ++ '>' :: d.rest))))) := by
  obtain ⟨hb, hafter⟩ := fromBase_cons h
  have hsome : ∃ a ∈ d.attributes, a.name = xmlBaseLiteral :=
    ⟨b, by rw [attributes_eq, h]; simp, hb⟩
  constructor
  · rw [text, scanned, h, attributes_eq, h, List.flatMap_append, List.flatMap_cons, Attribute.text,
      Attribute.withValue, hb]
    simp only [List.append_assoc]
  · intro v
    rw [withBase, if_pos hsome, scanned, h, attributes_eq, h, List.flatMap_append, List.flatMap_cons,
      if_pos hb, flatMap_withBase (fun a => beforeBase_name), flatMap_withBase hafter,
      Attribute.withValue, hb]
    simp only [List.append_assoc]

/-- The tag in front of the attribute's name ends in white space. -/
theorem scanned_blank {b : Attribute} {after : List Attribute} (h : d.fromBase = b :: after) :
    ∃ front c, d.scanned = front ++ [c] ∧ Blank c := by
  obtain ⟨front, c, hspace⟩ := List.eq_nil_or_concat b.space |>.resolve_left b.space_ok.1
  refine ⟨d.tagName ++ (d.beforeBase.flatMap Attribute.text ++ front), c, ?_, ?_⟩
  · rw [scanned, h]
    simp [hspace]
  · apply b.space_ok.2
    simp [hspace]

/-- What the code makes of a document is right for every value exactly if the document fits. -/
theorem writes_withBase_iff (n : Nat) : (∀ v, Writes d.text n v (d.withBase v)) ↔ d.Fits n := by
  unfold Fits
  cases h : d.fromBase with
  | nil =>
      obtain ⟨htext, hbase⟩ := text_of_fromBase_nil h
      simp only [htext, hbase]
      exact writes_tagEnd_iff (skipPast_head _)
  | cons b after =>
      obtain ⟨htext, hbase⟩ := text_of_fromBase_cons h
      simp only [htext, hbase]
      exact writes_literal_iff (scanned_blank h) b.beforeEq_ok b.afterEq_ok b.value_ok.1
        (skipPast_head _)

end Document

/-- `insert_xml_base` writes the document with the new base, whatever it is, exactly if the document fits
the first read. -/
theorem insertXmlBase_withBase_iff (d : Document) (fd : Descriptor) (hreadable : fd.Readable)
    (hrest : fd.rest = d.text) :
    (∀ xmlBase, ∃ fd', insertXmlBase fd xmlBase = .ok (d.withBase xmlBase, fd')) ↔
      d.Fits (fd.chunk 1024) := by
  have hne : fd.rest ≠ [] := by
    rw [hrest, Document.text]
    simp
  rw [← Document.writes_withBase_iff]
  refine forall_congr' fun xmlBase => ?_
  rw [insertXmlBase_ok_iff hreadable hne, hrest]
  rfl

/-- A file that is read 1024 bytes at a time. -/
def fileOf (text : Text) : Descriptor := ⟨text, fun _ => some 1023, 0⟩

theorem fileOf_readable (text : Text) : (fileOf text).Readable := fun _ => rfl

/-- `<?xml?><Dataset n="x" xml:base="y"></Dataset>`. -/
def plainDocument : Document where
  prolog := ['x', 'm', 'l']
  gap := []
  attributes :=
    [⟨[' '], ['n'], [], [], ['x'], by decide, by decide, by decide, by decide, by decide⟩,
      ⟨[' '], ['x', 'm', 'l', ':', 'b', 'a', 's', 'e'], [], [], ['y'], by decide, by decide, by decide,
        by decide, by decide⟩]
  tail := []
  rest := ['<', '/', 'D', 'a', 't', 'a', 's', 'e', 't', '>']
  prolog_ok := by decide
  gap_ok := by decide
  tail_ok := by decide
  one_base := by decide

theorem plainDocument_written : ∃ fd', insertXmlBase (fileOf plainDocument.text) ['z'] =
    .ok (plainDocument.withBase ['z'], fd') := by
  refine (insertXmlBase_withBase_iff plainDocument _ (fileOf_readable _) rfl).mpr ?_ ['z']
  exact ⟨by decide, rfl, rfl, by decide⟩

/-- `<?xml?><Dataset n="x>"></Dataset>`. -/
def bracketDocument : Document where
  prolog := ['x', 'm', 'l']
  gap := []
  attributes :=
    [⟨[' '], ['n'], [], [], ['x', '>'], by decide, by decide, by decide, by decide, by decide⟩]
  tail := []
  rest := ['<', '/', 'D', 'a', 't', 'a', 's', 'e', 't', '>']
  prolog_ok := by decide
  gap_ok := by decide
  tail_ok := by decide
  one_base := by decide

/-- The new attribute lands in the value of the old one. -/
theorem bracketDocument_not_written : ¬ ∃ fd', insertXmlBase (fileOf bracketDocument.text) ['z'] =
    .ok (bracketDocument.withBase ['z'], fd') := by
  rw [insertXmlBase_ok_iff (fileOf_readable _) (by decide)]
  rintro ⟨start, hstart, hout⟩
  have hsplice : spliceBuffer ((fileOf bracketDocument.text).rest.take
      ((fileOf bracketDocument.text).chunk 1024)) ['z'] =
        .ok (bracketDocument.text.take 20 ++ baseText ['z'] ++ bracketDocument.text.drop 20) := by
    decide
  rw [hsplice] at hstart
  obtain rfl := Except.ok.inj hstart
  revert hout
  decide

end Skunk.BesUtils
