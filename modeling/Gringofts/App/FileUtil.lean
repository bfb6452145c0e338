import Gringofts.Lib.LittleEndian
import Mathlib.Data.List.TakeWhile

/-!
# Numbers and texts in a file

A snapshot is written as a sequence of numbers and texts and read back in the same order. A number
takes eight bytes, as it lies in memory. A text is written as its length and its bytes, so that it
may have any bytes at all.

Reading a text does not keep to that. A length of `0` fails an assertion, and the string is made
from a pointer to the bytes, so that it ends before the first zero byte.

## Main definitions

* `Termination` — the ways in which the process ends
* `FileUtil.writeUint64ToFile`, `FileUtil.writeStrToFile`, `FileUtil.writeAll`
* `FileUtil.readUint64FromFile`, `FileUtil.readStrFromFile`, `FileUtil.readAll`

## Main results

* `FileUtil.readStr_of_readable`, `FileUtil.readable_of_readStr` — when a text is read back
* `snapshot_items_round_trip_iff`, `snapshot_texts_are_lost`
-/

namespace Gringofts

/-- The ways in which the process ends. -/
inductive Termination
  /-- `exit(-1)`, when a stream is not good. -/
  | exit
  | assertion
  /-- An exception leaves a function that is `noexcept`. -/
  | uncaught
  deriving DecidableEq

/-- What is written to a file, one after the other. -/
inductive FileItem
  | number (n : UInt64)
  | text (bytes : List UInt8)
  deriving DecidableEq

/-- What is to be read. -/
inductive FileItem.Kind
  | number
  | text
  deriving DecidableEq

/-- The kind of an item. -/
def FileItem.kind : FileItem → FileItem.Kind
  | .number _ => .number
  | .text _ => .text

namespace FileUtil

/-! ## Writing -/

/-- `writeUint64ToFile`, at the end of what has been written. -/
def writeUint64ToFile (ofs : List UInt8) (content : ℕ) : List UInt8 := ofs ++ toBytes 8 content

/-- `writeStrToFile`. -/
def writeStrToFile (ofs content : List UInt8) : List UInt8 :=
  writeUint64ToFile ofs content.length ++ content

/-- Write an item. -/
def write (ofs : List UInt8) : FileItem → List UInt8
  | .number n => writeUint64ToFile ofs n.toNat
  | .text bytes => writeStrToFile ofs bytes

/-- Write items one after the other. -/
def writeAll (ofs : List UInt8) (items : List FileItem) : List UInt8 := items.foldl write ofs

/-! ## Reading -/

/-- A read from what is left of a file. -/
abbrev Reading (α : Type) := StateT (List UInt8) (Except Termination) α

/-- `ifs.read` and `checkFileState`. -/
def readBytes (size : ℕ) : Reading (List UInt8) := fun ifs =>
  if size ≤ ifs.length then .ok (ifs.take size, ifs.drop size) else .error .exit

/-- `readUint64FromFile`. -/
def readUint64FromFile : Reading ℕ := do
  let bytes ← readBytes 8
  return ofBytes bytes

/-- `readStrFromFile`. The string is made from the pointer and ends before the first zero byte. -/
def readStrFromFile : Reading (List UInt8) := do
  let size ← readUint64FromFile
  if size = 0 then throw .assertion
  let buffer ← readBytes size
  return buffer.takeWhile fun b => b ≠ 0

/-- Read an item. -/
def read : FileItem.Kind → Reading FileItem
  | .number => return .number (UInt64.ofNat (← readUint64FromFile))
  | .text => return .text (← readStrFromFile)

/-- Read items one after the other. -/
def readAll : List FileItem.Kind → Reading (List FileItem)
  | [] => return []
  | kind :: kinds => do
    let item ← read kind
    let items ← readAll kinds
    return item :: items

/-! ## What is read back -/

section bind

variable {α β : Type} {m : Reading α} {f : α → Reading β} {ifs ifs' : List UInt8} {a : α}

/-- A read that succeeds is followed by the next one, in what is left. -/
theorem bind_of_ok (h : m ifs = .ok (a, ifs')) : (m >>= f) ifs = f a ifs' := by
  change Except.bind (m ifs) _ = _
  rw [h]
  rfl

/-- What reads in sequence returned, each of them returned. -/
theorem exists_of_bind {b : β} {ifs'' : List UInt8} (h : (m >>= f) ifs = .ok (b, ifs'')) :
    ∃ a ifs', m ifs = .ok (a, ifs') ∧ f a ifs' = .ok (b, ifs'') := by
  cases hm : m ifs with
  | error e =>
    change Except.bind (m ifs) _ = _ at h
    rw [hm] at h
    cases h
  | ok p =>
    have hm' : m ifs = .ok (p.1, p.2) := hm
    rw [bind_of_ok hm'] at h
    exact ⟨p.1, p.2, rfl, h⟩

end bind

variable {s rest : List UInt8} {n : ℕ}

/-- What has been written stays in front. -/
theorem write_eq (ofs : List UInt8) (item : FileItem) : write ofs item = ofs ++ write [] item := by
  cases item with
  | number n => simp [write, writeUint64ToFile]
  | text bytes => simp [write, writeStrToFile, writeUint64ToFile]

theorem writeAll_eq (ofs : List UInt8) (items : List FileItem) :
    writeAll ofs items = ofs ++ writeAll [] items := by
  induction items generalizing ofs with
  | nil => simp [writeAll]
  | cons item items ih =>
    change writeAll (write ofs item) items = ofs ++ writeAll (write [] item) items
    rw [ih (write ofs item), ih (write [] item), write_eq ofs item, List.append_assoc]

theorem writeAll_cons (item : FileItem) (items : List FileItem) :
    writeAll [] (item :: items) = write [] item ++ writeAll [] items :=
  writeAll_eq (write [] item) items

/-- A number is read back as far as it fits. -/
theorem readUint64_write : readUint64FromFile (toBytes 8 n ++ rest) = .ok (n % 2 ^ 64, rest) := by
  have hread : readBytes 8 (toBytes 8 n ++ rest) = .ok (toBytes 8 n, rest) := by
    simp [readBytes]
  rw [readUint64FromFile, bind_of_ok hread, ofBytes_toBytes]
  rfl

/-- What is read where a text has been written. -/
theorem readStr_write : readStrFromFile (writeStrToFile [] s ++ rest) =
    if s.length % 2 ^ 64 = 0 then .error .assertion
    else .ok (((s ++ rest).take (s.length % 2 ^ 64)).takeWhile fun b => b ≠ 0,
      (s ++ rest).drop (s.length % 2 ^ 64)) := by
  have hbytes : writeStrToFile [] s ++ rest = toBytes 8 s.length ++ (s ++ rest) := by
    simp [writeStrToFile, writeUint64ToFile]
  rw [hbytes, readStrFromFile, bind_of_ok readUint64_write]
  split
  · rfl
  · have hread : readBytes (s.length % 2 ^ 64) (s ++ rest) =
        .ok ((s ++ rest).take (s.length % 2 ^ 64), (s ++ rest).drop (s.length % 2 ^ 64)) := by
      have hle := Nat.mod_le s.length (2 ^ 64)
      rw [readBytes, if_pos]
      rw [List.length_append]
      omega
    exact bind_of_ok hread

/-- A text that is read back without loss: it is not empty, has no zero byte, and its length fits.
-/
def Readable (s : List UInt8) : Prop := s ≠ [] ∧ 0 ∉ s ∧ s.length < 2 ^ 64

instance : Decidable (Readable s) := inferInstanceAs (Decidable (_ ∧ _))

theorem readStr_of_readable (h : Readable s) :
    readStrFromFile (writeStrToFile [] s ++ rest) = .ok (s, rest) := by
  obtain ⟨hne, hzero, hlength⟩ := h
  have hpos : s.length ≠ 0 := fun hnil => hne (List.length_eq_zero_iff.mp hnil)
  have hwhile : s.takeWhile (fun b => b ≠ 0) = s := by
    refine List.takeWhile_eq_self_iff.mpr fun b hb => ?_
    have hb' : b ≠ 0 := ne_of_mem_of_not_mem hb hzero
    simpa using hb'
  rw [readStr_write, Nat.mod_eq_of_lt hlength, if_neg hpos, List.take_left, List.drop_left, hwhile]

/-- **When a text is read back**, whatever is left of the file then. -/
theorem readable_of_readStr {rest' : List UInt8}
    (h : readStrFromFile (writeStrToFile [] s ++ rest) = .ok (s, rest')) : Readable s := by
  rw [readStr_write] at h
  split at h
  · cases h
  next hsize =>
  have hs : ((s ++ rest).take (s.length % 2 ^ 64)).takeWhile (fun b => b ≠ 0) = s :=
    congrArg Prod.fst (Except.ok.inj h)
  have hlength : s.length < 2 ^ 64 := by
    -- otherwise fewer bytes have been read than the text has
    have hle := (List.takeWhile_sublist (l := (s ++ rest).take (s.length % 2 ^ 64))
      fun b => decide (b ≠ 0)).length_le
    rw [hs, List.length_take] at hle
    have hmod := Nat.mod_lt s.length (Nat.two_pow_pos 64)
    omega
  refine ⟨?_, fun hzero => ?_, hlength⟩
  · rintro rfl
    exact hsize rfl
  · rw [← hs] at hzero
    simpa using List.mem_takeWhile_imp hzero

/-- An item is read back if it is a number or a text that is read back without loss. -/
theorem read_write (item : FileItem) (h : ∀ s, item = .text s → Readable s) :
    read item.kind (write [] item ++ rest) = .ok (item, rest) := by
  cases item with
  | number n =>
    have hread : readUint64FromFile (write [] (.number n) ++ rest) =
        .ok (n.toNat % 2 ^ 64, rest) := readUint64_write
    have hn : UInt64.ofNat (n.toNat % 2 ^ 64) = n := by simp
    rw [FileItem.kind, read, bind_of_ok hread, hn]
    rfl
  | text s =>
    have hread : readStrFromFile (write [] (.text s) ++ rest) = .ok (s, rest) :=
      readStr_of_readable (h s rfl)
    rw [FileItem.kind, read, bind_of_ok hread]
    rfl

theorem readable_of_read {item : FileItem} {rest' : List UInt8}
    (h : read item.kind (write [] item ++ rest) = .ok (item, rest')) :
    ∀ s, item = .text s → Readable s := by
  rintro s rfl
  obtain ⟨s', rest'', hread, heq⟩ := exists_of_bind h
  cases heq
  exact readable_of_readStr hread

end FileUtil

open FileUtil in
/-- **Numbers and texts are read back**, in order, and exactly the bytes that were written are
consumed, if and only if no text is empty or has a zero byte (and the lengths fit, as those of
strings in memory do). -/
theorem snapshot_items_round_trip_iff (items : List FileItem) (rest : List UInt8) :
    readAll (items.map FileItem.kind) (writeAll [] items ++ rest) = .ok (items, rest) ↔
      ∀ s, .text s ∈ items → s ≠ [] ∧ 0 ∉ s ∧ s.length < 2 ^ 64 := by
  induction items with
  | nil => exact iff_of_true rfl (by simp)
  | cons item items ih =>
    rw [writeAll_cons, List.append_assoc, List.map_cons, readAll]
    constructor
    · intro h
      obtain ⟨item', rest', hread, h⟩ := exists_of_bind h
      obtain ⟨items', rest'', hreads, h⟩ := exists_of_bind h
      cases h
      have hitem := readable_of_read hread
      -- the item has been read back, and so have the others, from where it ends
      rw [read_write item hitem] at hread
      cases hread
      intro s hs
      rcases List.mem_cons.mp hs with heq | hs
      · exact hitem s heq.symm
      · exact ih.mp hreads s hs
    · intro h
      have hitem : ∀ s, item = .text s → Readable s := fun s hs =>
        h s (List.mem_cons.mpr (Or.inl hs.symm))
      rw [bind_of_ok (read_write item hitem),
        bind_of_ok (ih.mpr fun s hs => h s (List.mem_cons_of_mem item hs))]
      rfl

/-- **Texts are lost.** An empty text fails an assertion when it is read, and a text with a zero
byte comes back without what follows it. -/
theorem snapshot_texts_are_lost :
    FileUtil.readAll [.text] (FileUtil.writeAll [] [.text []]) = .error .assertion ∧
      FileUtil.readAll [.text] (FileUtil.writeAll [] [.text [65, 0, 66]]) =
        .ok ([.text [65]], []) := by
  decide +kernel

end Gringofts
