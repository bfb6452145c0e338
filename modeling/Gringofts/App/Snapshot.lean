import Gringofts.App.FileUtil
import Gringofts.Lib.Decimal
import Gringofts.Lib.FirstMax
import Mathlib.Data.List.Nodup
import Mathlib.Data.List.TakeWhile
import Mathlib.Tactic.Tauto
import Mathlib.Algebra.Group.Nat.Defs

/-!
# Snapshot files

A snapshot is written to a temporary file, which is then renamed to `<offset>.snapshot`. The latest
snapshot is found by looking at all files of the directory, for the largest number in front of
`.snapshot` at the end of the path.

`takeSnapshotAndPersist` returns what `createSnapshotAndPersist` has returned, but it does not look
at it: a snapshot that is said to have failed is synced and renamed all the same, and is the latest
one from then on. Only if the temporary file cannot be created or not renamed does a failed attempt
leave things as they were.

Two details of the search matter as well. A number from `2 ^ 63` on is out of range for `stoll`, and
the exception ends the process. And the pattern is matched against the end of the path, so that
other files may have the number of the new one, `007.snapshot` for instance: of files with the same
number the one that is listed first is chosen. The order of the listing is that of the directory,
and where a new file comes in it is left open.

## Main definitions

* `SnapshotMatch`, `searchSnapshot` — the pattern
* `SnapshotDir` — the directory, in the order of its listing
* `SnapshotDir.takeSnapshotAndPersist`, with `SnapshotAttempt` for what may happen
* `SnapshotDir.findLatestSnapshotOffset`, `SnapshotDir.loadLatestSnapshot`
* `SnapshotDir.Outranks`, `SnapshotDir.Shadows`

## Main results

* `SnapshotDir.getLargestSnapshot_eq` — what the search finds
* `failed_snapshot_never_latest_iff`, `failed_snapshot_is_latest`
-/

namespace Gringofts

variable {path : List UInt8} {xs : List (List UInt8 × List UInt8)}

/-! ## The pattern -/

/-- The bytes of a text in ASCII. -/
def bytesOf (text : String) : List UInt8 := text.toList.map fun c => UInt8.ofNat c.toNat

/-- A match of `([0-9]+).snapshot$`: the digits, and the byte that stands for the dot. -/
structure SnapshotMatch where
  digits : List UInt8
  dot : UInt8
  deriving DecidableEq

namespace SnapshotMatch

variable (m : SnapshotMatch)

/-- `stoll` of the digits, before the range is looked at. -/
def index : ℕ := ofDecimal m.digits

/-- The text that is matched. -/
def text : List UInt8 := m.digits ++ m.dot :: bytesOf "snapshot"

end SnapshotMatch

/-- `regex_search` for `([0-9]+).snapshot$`. The match ends with the path, and the digits go as far
back as there are digits. The dot is any byte but the two that end a line. -/
def searchSnapshot (path : List UInt8) : Option SnapshotMatch :=
  if (bytesOf "snapshot").isSuffixOf path then
    match (path.take (path.length - 8)).reverse with
    | [] => none
    | dot :: front =>
      let digits := (front.takeWhile fun b => decide (IsDigit b)).reverse
      if dot = 10 ∨ dot = 13 ∨ digits = [] then none else some ⟨digits, dot⟩
  else none

/-- The name of the snapshot at an offset. -/
def snapshotName (offset : ℕ) : List UInt8 := decimal offset ++ bytesOf ".snapshot"

/-- The name of the file that becomes the snapshot. -/
def tmpSnapshotName (offset : ℕ) : List UInt8 := snapshotName offset ++ bytesOf ".tmp"

/-- The match of `snapshotName`. -/
def snapshotMatch (offset : ℕ) : SnapshotMatch := ⟨decimal offset, 46⟩

/-! ## The directory -/

/-- The regular files of a directory, in the order in which it lists them. -/
structure SnapshotDir where
  path : List UInt8
  /-- Names and contents. -/
  files : List (List UInt8 × List UInt8)
  /-- No name is there twice. -/
  nodup : (files.map Prod.fst).Nodup

namespace SnapshotDir

variable (d : SnapshotDir)

/-- `listFiles`, without the path. -/
def names : List (List UInt8) := d.files.map Prod.fst

/-- The content of a file. -/
def find? (name : List UInt8) : Option (List UInt8) :=
  (d.files.find? fun f => f.1 = name).map Prod.snd

/-- Remove a file. -/
def erase (name : List UInt8) : SnapshotDir where
  path := d.path
  files := d.files.filter fun f => f.1 ≠ name
  nodup := d.nodup.sublist (List.filter_sublist.map Prod.fst)

/-- The files before the place of a name: its own place, or the given one if it is new. -/
def front (name : List UInt8) (place : ℕ) : List (List UInt8 × List UInt8) :=
  if name ∈ d.names then d.files.takeWhile fun f => f.1 ≠ name else d.files.take place

/-- The files after the place of a name. -/
def back (name : List UInt8) (place : ℕ) : List (List UInt8 × List UInt8) :=
  if name ∈ d.names then (d.files.dropWhile fun f => f.1 ≠ name).tail else d.files.drop place

/-- With the place of a name the files are complete. -/
theorem files_eq (name : List UInt8) (place : ℕ) :
    (name ∉ d.names ∧ d.files = d.front name place ++ d.back name place) ∨
      ∃ content, d.files = d.front name place ++ (name, content) :: d.back name place := by
  by_cases hmem : name ∈ d.names
  · right
    rw [front, if_pos hmem, back, if_pos hmem]
    have hsplit := List.takeWhile_append_dropWhile (p := fun f => decide (f.1 ≠ name))
      (l := d.files)
    cases hdrop : d.files.dropWhile fun f => f.1 ≠ name with
    | nil =>
      obtain ⟨f, hf, rfl⟩ := List.mem_map.mp hmem
      have hne := List.dropWhile_eq_nil_iff.mp hdrop f hf
      simp at hne
    | cons f rest =>
      have hname : f.1 = name := by
        have hhead := List.head_dropWhile_not (fun f => decide (f.1 ≠ name)) (l := d.files)
          (by rw [hdrop]; exact List.cons_ne_nil f rest)
        simp only [hdrop, List.head_cons] at hhead
        simpa using hhead
      refine ⟨f.2, ?_⟩
      rw [hdrop] at hsplit
      rw [← hname] at hsplit ⊢
      exact hsplit.symm
  · left
    rw [front, if_neg hmem, back, if_neg hmem, List.take_append_drop]
    exact ⟨hmem, rfl⟩

theorem nodup_put (name : List UInt8) (content : List UInt8) (place : ℕ) :
    ((d.front name place ++ (name, content) :: d.back name place).map Prod.fst).Nodup := by
  have hnodup := d.nodup
  rcases d.files_eq name place with ⟨hnot, heq⟩ | ⟨old, heq⟩
  · rw [names] at hnot
    rw [heq, List.map_append] at hnot hnodup
    rw [List.map_append, List.map_cons]
    exact List.nodup_middle.mpr (List.nodup_cons.mpr ⟨hnot, hnodup⟩)
  · rw [heq, List.map_append, List.map_cons] at hnodup
    rw [List.map_append, List.map_cons]
    exact hnodup

/-- Write a file, in its place or in the given one. -/
def put (name : List UInt8) (content : List UInt8) (place : ℕ) : SnapshotDir where
  path := d.path
  files := d.front name place ++ (name, content) :: d.back name place
  nodup := d.nodup_put name content place

/-- `rename`. The old name goes, and what stood under the new one is replaced. -/
def rename (old new : List UInt8) (place : ℕ) : SnapshotDir :=
  match d.find? old with
  | none => d
  | some content => (d.erase old).put new content place

/-- The matches of the files of a listing. -/
def matching (files : List (List UInt8 × List UInt8)) : List SnapshotMatch :=
  files.filterMap fun f => searchSnapshot (d.path ++ 47 :: f.1)

/-- The snapshots of the directory. -/
def snapshots : List SnapshotMatch := d.matching d.files

/-! ## The functions of `SnapshotUtil` -/

/-- The loop of `getLargestSnapshot`. `stoll` throws for a number that does not fit. -/
def largestSnapshot : List (List UInt8 × List UInt8) → Option SnapshotMatch →
    Except Termination (Option SnapshotMatch)
  | [], best => pure best
  | f :: files, best =>
    match searchSnapshot (d.path ++ 47 :: f.1) with
    | none => largestSnapshot files best
    | some m =>
      if 2 ^ 63 ≤ m.index then .error .uncaught
      else largestSnapshot files (if ∀ b ∈ best, b.index < m.index then some m else best)

/-- `getLargestSnapshot`. -/
def getLargestSnapshot : Except Termination (Option (List UInt8)) := do
  return (← d.largestSnapshot d.files none).map SnapshotMatch.text

/-- `findLatestSnapshotOffset`: what stands before the suffix. -/
def findLatestSnapshotOffset : Except Termination (Option ℕ) := do
  return (← d.getLargestSnapshot).map fun text =>
    ofDecimal (text.take (text.length - 9))

/-- `loadLatestSnapshot`: the file that is handed to the state machine, if it can be opened. -/
def loadLatestSnapshot : Except Termination (Option (List UInt8 × List UInt8)) := do
  return (← d.getLargestSnapshot).bind fun text => (d.find? text).map fun content => (text, content)

end SnapshotDir

/-- What may happen while a snapshot is taken. -/
structure SnapshotAttempt where
  /-- The temporary file is created. -/
  created : Bool
  /-- What `createSnapshotAndPersist` returns and what it has written, unless it throws. -/
  persisted : Option (Bool × List UInt8)
  /-- The stream is good after it has been closed. -/
  closed : Bool
  /-- The file can be opened again for syncing. Whether it is synced is not looked at. -/
  synced : Bool
  renamed : Bool
  /-- The place of the temporary file in the listing. -/
  tmpPlace : ℕ
  /-- The place of the snapshot in the listing. -/
  place : ℕ

/-- What `createSnapshotAndPersist` has written. -/
def SnapshotAttempt.written (a : SnapshotAttempt) : List UInt8 := (a.persisted.map Prod.snd).getD []

/-- What `createSnapshotAndPersist` returns. -/
def SnapshotAttempt.reports (a : SnapshotAttempt) : Option Bool := a.persisted.map Prod.fst

namespace SnapshotDir

variable (d : SnapshotDir)

/-- `takeSnapshotAndPersist`: the directory afterwards, whether it says to have succeeded, and the
path. -/
def takeSnapshotAndPersist (offset : ℕ) (a : SnapshotAttempt) :
    Except Termination (SnapshotDir × Bool × List UInt8) :=
  let path := d.path ++ 47 :: snapshotName offset
  if a.created = false then pure (d, false, path)
  else
    match a.persisted with
    | none => .error .uncaught
    | some (result, content) =>
      if a.closed = false then .error .exit
      else if a.synced = false then .error .assertion
      else
        let d := d.put (tmpSnapshotName offset) content a.tmpPlace
        if a.renamed = false then pure (d, false, path)
        else pure (d.rename (tmpSnapshotName offset) (snapshotName offset) a.place, result, path)

/-- A snapshot has a number that does not fit. -/
def Overflows : Prop := ∃ m ∈ d.snapshots, 2 ^ 63 ≤ m.index

/-- A snapshot with a larger number is there. -/
def Outranks (offset : ℕ) : Prop := ∃ m ∈ d.snapshots, offset < m.index

/-- Another file with the same number is listed before the place of the snapshot. -/
def Shadows (offset place : ℕ) : Prop :=
  ∃ m ∈ ((d.matching ((d.erase (tmpSnapshotName offset)).front (snapshotName offset) place)).find?
    fun m => m.index = offset), m.text ≠ snapshotName offset

instance : Decidable d.Overflows := inferInstanceAs (Decidable (∃ m ∈ d.snapshots, _))

instance (offset : ℕ) : Decidable (d.Outranks offset) :=
  inferInstanceAs (Decidable (∃ m ∈ d.snapshots, _))

instance (offset place : ℕ) : Decidable (d.Shadows offset place) :=
  inferInstanceAs (Decidable (∃ m ∈ List.find? _ _, _))

end SnapshotDir

/-! ## What matches -/

theorem SnapshotMatch.text_take (m : SnapshotMatch) :
    m.text.take (m.text.length - 9) = m.digits := by
  simp [text, bytesOf]

/-- The text determines the number. -/
theorem SnapshotMatch.index_eq_of_text_eq {m m' : SnapshotMatch} (h : m.text = m'.text) :
    m.index = m'.index := by
  rw [index, index, ← m.text_take, ← m'.text_take, h]

theorem text_snapshotMatch (offset : ℕ) : (snapshotMatch offset).text = snapshotName offset := rfl

@[simp] theorem index_snapshotMatch (offset : ℕ) : (snapshotMatch offset).index = offset :=
  ofDecimal_decimal offset

/-- A path that does not end in the suffix does not match. -/
theorem searchSnapshot_eq_none (h : ¬ bytesOf "snapshot" <:+ path) :
    searchSnapshot path = none := by
  rw [searchSnapshot, if_neg]
  simpa using h

/-- Digits, a dot and the suffix match, from where the digits start. -/
theorem searchSnapshot_append {front digits : List UInt8} {c dot : UInt8}
    (hdigits : ∀ x ∈ digits, IsDigit x) (hne : digits ≠ []) (hc : ¬ IsDigit c)
    (hdot : dot ≠ 10 ∧ dot ≠ 13) :
    searchSnapshot (front ++ c :: (digits ++ dot :: bytesOf "snapshot")) = some ⟨digits, dot⟩ := by
  have hpath : front ++ c :: (digits ++ dot :: bytesOf "snapshot") =
      (front ++ c :: (digits ++ [dot])) ++ bytesOf "snapshot" := by simp
  have hlen : (bytesOf "snapshot").length = 8 := rfl
  have hsuffix : (bytesOf "snapshot").isSuffixOf
      ((front ++ c :: (digits ++ [dot])) ++ bytesOf "snapshot") = true :=
    List.isSuffixOf_iff_suffix.mpr (List.suffix_append _ _)
  have htake : ((front ++ c :: (digits ++ [dot])) ++ bytesOf "snapshot").take
      (((front ++ c :: (digits ++ [dot])) ++ bytesOf "snapshot").length - 8) =
      front ++ c :: (digits ++ [dot]) := by
    rw [List.length_append, hlen, Nat.add_sub_cancel, List.take_left]
  have hreverse : (front ++ c :: (digits ++ [dot])).reverse =
      dot :: (digits.reverse ++ c :: front.reverse) := by simp
  have hwhile : ((digits.reverse ++ c :: front.reverse).takeWhile fun b => decide (IsDigit b)) =
      digits.reverse := by
    rw [List.takeWhile_append_of_pos fun x hx =>
        decide_eq_true (hdigits x (List.mem_reverse.mp hx)),
      List.takeWhile_cons_of_neg (by simp [hc]), List.append_nil]
  rw [hpath, searchSnapshot, if_pos hsuffix, htake, hreverse]
  simp only [hwhile, List.reverse_reverse]
  rw [if_neg]
  simp [hdot.1, hdot.2, hne]

theorem searchSnapshot_snapshotName (path : List UInt8) (offset : ℕ) :
    searchSnapshot (path ++ 47 :: snapshotName offset) = some (snapshotMatch offset) := by
  rw [← text_snapshotMatch]
  exact searchSnapshot_append (fun x hx => isDigit_of_mem_decimal hx) (decimal_ne_nil offset)
    (by decide) ⟨(by decide : (46 : UInt8) ≠ 10), (by decide : (46 : UInt8) ≠ 13)⟩

/-- The temporary file does not match. -/
theorem searchSnapshot_tmpSnapshotName (path : List UInt8) (offset : ℕ) :
    searchSnapshot (path ++ 47 :: tmpSnapshotName offset) = none := by
  refine searchSnapshot_eq_none ?_
  rintro ⟨front, hfront⟩
  -- the last letters differ
  have hpath : path ++ 47 :: tmpSnapshotName offset =
      (path ++ 47 :: snapshotName offset ++ bytesOf ".tm") ++ bytesOf "p" := by
    simp [tmpSnapshotName, bytesOf]
  have hsnapshot : front ++ bytesOf "snapshot" = (front ++ bytesOf "snapsho") ++ bytesOf "t" := by
    simp [bytesOf]
  rw [hpath, hsnapshot] at hfront
  exact absurd (List.append_inj_right' hfront rfl) (by decide)

/-- The text of a match is not the name of a temporary file. -/
theorem SnapshotMatch.text_ne_tmpSnapshotName (m : SnapshotMatch) (offset : ℕ) :
    m.text ≠ tmpSnapshotName offset := by
  intro h
  have hlast := congrArg List.getLast? h
  rw [tmpSnapshotName, List.getLast?_append, text, List.getLast?_append] at hlast
  exact absurd hlast (by simp [bytesOf])

namespace SnapshotDir

variable {d d' : SnapshotDir} {name n : List UInt8} {content : List UInt8} {place offset : ℕ}

/-! ## Reading and listing -/

theorem find?_append_middle {front back : List (List UInt8 × List UInt8)} :
    ((front ++ (name, content) :: back).find? fun f => f.1 = n).map Prod.snd =
      ((front.find? fun f => f.1 = n).map Prod.snd).or
        (if name = n then some content else (back.find? fun f => f.1 = n).map Prod.snd) := by
  rw [List.find?_append]
  cases front.find? fun f => decide (f.1 = n) with
  | some f => rfl
  | none =>
    by_cases hn : name = n
    · simp [hn]
    · simp [hn]

theorem find?_front_eq_none : ((d.front name place).find? fun f => f.1 = name) = none := by
  refine List.find?_eq_none.mpr fun f hf => ?_
  by_cases hmem : name ∈ d.names
  · rw [front, if_pos hmem] at hf
    simpa using List.mem_takeWhile_imp hf
  · rw [front, if_neg hmem] at hf
    have hne : f.1 ≠ name := fun heq =>
      hmem (heq ▸ List.mem_map_of_mem (List.mem_of_mem_take hf))
    simpa using hne

/-- What is read after a file is written. -/
theorem find?_put : (d.put name content place).find? n =
    if name = n then some content else d.find? n := by
  rw [find?, put, find?_append_middle]
  by_cases hn : name = n
  · subst hn
    simp [find?_front_eq_none]
  · rw [if_neg hn, if_neg hn, find?]
    rcases d.files_eq name place with ⟨-, heq⟩ | ⟨old, heq⟩
    · rw [heq, List.find?_append, Option.map_or]
    · rw [heq, find?_append_middle, if_neg hn]

theorem find?_erase_of_ne (h : n ≠ name) : (d.erase name).find? n = d.find? n := by
  rw [find?, erase, List.find?_filter, find?]
  congr 2
  funext f
  by_cases hf : f.1 = n
  · simp [hf, h]
  · simp [hf]

/-- A file that is written and removed leaves the others. -/
theorem erase_put : (d.put name content place).erase name = d.erase name := by
  have hfiles : ((d.put name content place).erase name).files = (d.erase name).files := by
    change List.filter _ (_ ++ _ :: _) = List.filter _ d.files
    rcases d.files_eq name place with ⟨-, heq⟩ | ⟨old, heq⟩
    · rw [heq]
      simp
    · rw [heq]
      simp
  have hext : ∀ x y : SnapshotDir, x.path = y.path → x.files = y.files → x = y := by
    rintro ⟨_, _, _⟩ ⟨_, _, _⟩ rfl rfl
    rfl
  exact hext _ _ rfl hfiles

theorem matching_append {ys : List (List UInt8 × List UInt8)} :
    d.matching (xs ++ ys) = d.matching xs ++ d.matching ys := List.filterMap_append

theorem matching_cons_of_none (h : searchSnapshot (d.path ++ 47 :: name) = none) :
    d.matching ((name, content) :: xs) = d.matching xs := List.filterMap_cons_none h

theorem matching_cons_snapshotName :
    d.matching ((snapshotName offset, content) :: xs) = snapshotMatch offset :: d.matching xs :=
  List.filterMap_cons_some (searchSnapshot_snapshotName d.path offset)

/-- A file that does not match may be written. -/
theorem snapshots_put_of_none (h : searchSnapshot (d.path ++ 47 :: name) = none) :
    (d.put name content place).snapshots = d.snapshots := by
  change d.matching (_ ++ _ :: _) = d.matching d.files
  rcases d.files_eq name place with ⟨-, heq⟩ | ⟨old, heq⟩
  · rw [heq, matching_append, matching_append, matching_cons_of_none h]
  · rw [heq, matching_append, matching_append, matching_cons_of_none h, matching_cons_of_none h]

/-- A file that does not match may be removed. -/
theorem matching_erase_of_none (h : searchSnapshot (d.path ++ 47 :: name) = none) :
    d.matching (d.erase name).files = d.snapshots := by
  rw [matching, erase, List.filterMap_filter]
  refine List.filterMap_congr fun f _ => ?_
  by_cases hf : f.1 = name
  · simp [hf, h]
  · simp [hf]

/-! ## What the search finds -/

theorem largestSnapshot_eq {files : List (List UInt8 × List UInt8)} {best : Option SnapshotMatch} :
    d.largestSnapshot files best =
      if ∃ m ∈ d.matching files, 2 ^ 63 ≤ m.index then .error .uncaught
      else .ok (pickMax SnapshotMatch.index (d.matching files) best) := by
  induction files generalizing best with
  | nil => rfl
  | cons f files ih =>
    rw [largestSnapshot]
    cases hf : searchSnapshot (d.path ++ 47 :: f.1) with
    | none =>
      have hcons : d.matching (f :: files) = d.matching files := List.filterMap_cons_none hf
      rw [hcons]
      exact ih
    | some m =>
      have hcons : d.matching (f :: files) = m :: d.matching files :=
        List.filterMap_cons_some hf
      rw [hcons]
      by_cases hfits : 2 ^ 63 ≤ m.index
      · have hex : ∃ m' ∈ m :: d.matching files, 2 ^ 63 ≤ m'.index :=
          ⟨m, List.mem_cons_self, hfits⟩
        simp only [if_pos hfits, if_pos hex]
      · have hiff : (∃ m' ∈ m :: d.matching files, 2 ^ 63 ≤ m'.index) ↔
            ∃ m' ∈ d.matching files, 2 ^ 63 ≤ m'.index := by
          constructor
          · rintro ⟨m', hm', hlarge⟩
            rcases List.mem_cons.mp hm' with rfl | hm'
            · exact absurd hlarge hfits
            · exact ⟨m', hm', hlarge⟩
          · rintro ⟨m', hm', hlarge⟩
            exact ⟨m', List.mem_cons_of_mem m hm', hlarge⟩
        simp only [if_neg hfits, ih, hiff, pickMax]

/-- The snapshot with the largest number, the first one of several. -/
def latest (d : SnapshotDir) : Option SnapshotMatch := pickMax SnapshotMatch.index d.snapshots none

/-- **What the search finds.** -/
theorem getLargestSnapshot_eq : d.getLargestSnapshot =
    if d.Overflows then .error .uncaught else .ok (d.latest.map SnapshotMatch.text) := by
  have hloop : d.largestSnapshot d.files none =
      if d.Overflows then .error .uncaught else .ok d.latest := largestSnapshot_eq
  rw [getLargestSnapshot, hloop]
  split
  · rfl
  · rfl

theorem findLatestSnapshotOffset_eq : d.findLatestSnapshotOffset =
    if d.Overflows then .error .uncaught else .ok (d.latest.map SnapshotMatch.index) := by
  rw [findLatestSnapshotOffset, getLargestSnapshot_eq]
  split
  · rfl
  · cases d.latest with
    | none => rfl
    | some m =>
      change Except.ok (some (ofDecimal (m.text.take (m.text.length - 9)))) = _
      rw [m.text_take]
      rfl

theorem loadLatestSnapshot_eq : d.loadLatestSnapshot =
    if d.Overflows then .error .uncaught
    else .ok (d.latest.bind fun m => (d.find? m.text).map fun content => (m.text, content)) := by
  rw [loadLatestSnapshot, getLargestSnapshot_eq]
  split
  · rfl
  · cases d.latest with
    | none => rfl
    | some m => rfl

/-- Directories that agree in what is selected and in its content. -/
theorem latest_congr (hover : d'.Overflows ↔ d.Overflows) (hlatest : d'.latest = d.latest)
    (hfind : ∀ m ∈ d.latest, d'.find? m.text = d.find? m.text) :
    d'.findLatestSnapshotOffset = d.findLatestSnapshotOffset ∧
      d'.loadLatestSnapshot = d.loadLatestSnapshot := by
  constructor
  · rw [findLatestSnapshotOffset_eq, findLatestSnapshotOffset_eq, hlatest]
    simp only [hover]
  · rw [loadLatestSnapshot_eq, loadLatestSnapshot_eq, hlatest]
    simp only [hover]
    congr 2
    cases hm : d.latest with
    | none => rfl
    | some m =>
      rw [Option.bind_some, Option.bind_some, hfind m hm]

/-! ## The directory after an attempt -/

/-- The directory after the snapshot has been renamed. -/
def taken (d : SnapshotDir) (offset : ℕ) (content : List UInt8) (place : ℕ) : SnapshotDir :=
  (d.erase (tmpSnapshotName offset)).put (snapshotName offset) content place

theorem tmpSnapshotName_ne (offset : ℕ) : tmpSnapshotName offset ≠ snapshotName offset := by
  rw [← text_snapshotMatch]
  exact ((snapshotMatch offset).text_ne_tmpSnapshotName offset).symm

theorem rename_put_tmp {tmpPlace : ℕ} :
    (d.put (tmpSnapshotName offset) content tmpPlace).rename (tmpSnapshotName offset)
      (snapshotName offset) place = d.taken offset content place := by
  rw [rename, find?_put, if_pos rfl, erase_put]
  rfl

/-- **What an attempt that returns has done**: nothing, or written the temporary file, or made the
snapshot. -/
theorem takeSnapshotAndPersist_cases {a : SnapshotAttempt} {result : Bool}
    (h : d.takeSnapshotAndPersist offset a = .ok (d', result, path)) :
    (a.created = false ∧ result = false ∧ d' = d) ∨
      (a.renamed = false ∧ result = false ∧
        d' = d.put (tmpSnapshotName offset) a.written a.tmpPlace) ∨
      (a.created = true ∧ a.renamed = true ∧ a.persisted = some (result, a.written) ∧
        d' = d.taken offset a.written a.place) := by
  rw [takeSnapshotAndPersist] at h
  simp only at h
  split at h
  · next hcreated =>
    cases h
    exact Or.inl ⟨hcreated, rfl, rfl⟩
  next hcreated =>
  cases hpersisted : a.persisted with
  | none =>
    rw [hpersisted] at h
    cases h
  | some p =>
    have hwritten : a.written = p.2 := by rw [SnapshotAttempt.written, hpersisted]; rfl
    rw [hpersisted] at h
    simp only at h
    split at h
    · cases h
    split at h
    · cases h
    split at h
    · next hrenamed =>
      cases h
      exact Or.inr (Or.inl ⟨hrenamed, rfl, by rw [hwritten]⟩)
    · next hrenamed =>
      rw [rename_put_tmp] at h
      cases h
      refine Or.inr (Or.inr ⟨by simpa using hcreated, by simpa using hrenamed, ?_, ?_⟩)
      · rw [hwritten]
      · rw [hwritten]

/-- The listing before and after: the snapshot comes in between, or it was there. -/
theorem snapshots_taken (d : SnapshotDir) (offset : ℕ) (content : List UInt8) (place : ℕ) :
    ∃ front back,
      front = d.matching ((d.erase (tmpSnapshotName offset)).front (snapshotName offset) place) ∧
      (d.taken offset content place).snapshots = front ++ snapshotMatch offset :: back ∧
      (d.find? (snapshotName offset) = none ∧ d.snapshots = front ++ back ∨
        d.snapshots = front ++ snapshotMatch offset :: back) := by
  have herase := matching_erase_of_none (searchSnapshot_tmpSnapshotName d.path offset)
  refine ⟨_, d.matching ((d.erase (tmpSnapshotName offset)).back (snapshotName offset) place), rfl,
    ?_, ?_⟩
  · change d.matching (_ ++ _ :: _) = _
    rw [matching_append, matching_cons_snapshotName]
  · rcases (d.erase (tmpSnapshotName offset)).files_eq (snapshotName offset) place with
      ⟨hnot, heq⟩ | ⟨old, heq⟩
    · left
      constructor
      · rw [← find?_erase_of_ne (tmpSnapshotName_ne offset).symm, find?]
        refine Option.map_eq_none_iff.mpr (List.find?_eq_none.mpr fun f hf => ?_)
        have hne : f.1 ≠ snapshotName offset := fun hname =>
          hnot (hname ▸ List.mem_map_of_mem hf)
        simpa using hne
      · rw [← herase, heq, matching_append]
    · right
      rw [← herase, heq, matching_append, matching_cons_snapshotName]

theorem find?_taken (h : n ≠ tmpSnapshotName offset) :
    (d.taken offset content place).find? n =
      if snapshotName offset = n then some content else d.find? n := by
  rw [taken, find?_put, find?_erase_of_ne h]

/-! ## Whether the new snapshot is the latest -/

theorem mem_snapshots_taken {m : SnapshotMatch} :
    m ∈ (d.taken offset content place).snapshots ↔
      m ∈ d.snapshots ∨ m = snapshotMatch offset := by
  obtain ⟨front, back, -, htaken, hbefore⟩ := snapshots_taken d offset content place
  rw [htaken, List.mem_append, List.mem_cons]
  rcases hbefore with ⟨-, hbefore⟩ | hbefore
  · rw [hbefore, List.mem_append]
    tauto
  · rw [hbefore, List.mem_append, List.mem_cons]
    tauto

theorem overflows_taken_iff :
    (d.taken offset content place).Overflows ↔ d.Overflows ∨ 2 ^ 63 ≤ offset := by
  simp only [Overflows, mem_snapshots_taken, or_and_right, exists_or, exists_eq_left,
    index_snapshotMatch]

/-- A larger number stays the latest. -/
theorem latest_taken_of_outranks (content : List UInt8) (place : ℕ) (h : d.Outranks offset) :
    (d.taken offset content place).latest = d.latest ∧
      ∀ m ∈ d.latest, m.text ≠ snapshotName offset := by
  constructor
  · obtain ⟨front, back, -, htaken, hbefore⟩ := snapshots_taken d offset content place
    rw [latest, latest, htaken]
    rw [Outranks] at h
    rcases hbefore with ⟨-, hbefore⟩ | hbefore
    · rw [hbefore] at h ⊢
      exact pickMax_insert_of_lt (by simpa using h)
    · rw [hbefore]
  · intro m hm htext
    obtain ⟨m', hm', hlt⟩ := h
    have hle := (mem_of_pickMax hm).2 m' hm'
    rw [← text_snapshotMatch] at htext
    have hindex := SnapshotMatch.index_eq_of_text_eq htext
    rw [index_snapshotMatch] at hindex
    omega

/-- Otherwise the first file with the number is the latest. -/
theorem latest_taken_of_not_outranks (content : List UInt8) (place : ℕ)
    (h : ¬ d.Outranks offset) :
    (d.taken offset content place).latest = some (((d.matching
      ((d.erase (tmpSnapshotName offset)).front (snapshotName offset) place)).find?
        fun m => m.index = offset).getD (snapshotMatch offset)) := by
  obtain ⟨front, back, hfront, htaken, -⟩ := snapshots_taken d offset content place
  have hle : ∀ m ∈ front ++ back, m.index ≤ (snapshotMatch offset).index := by
    intro m hm
    rw [index_snapshotMatch]
    have hmem : m ∈ (d.taken offset content place).snapshots := by
      rw [htaken]
      exact (List.sublist_cons_self _ back).append_left front |>.subset hm
    rcases mem_snapshots_taken.mp hmem with hmem | rfl
    · exact Nat.le_of_not_lt fun hlt => h ⟨m, hmem, hlt⟩
    · exact (index_snapshotMatch offset).le
  rw [latest, htaken, pickMax_insert_of_le hle, index_snapshotMatch, hfront]

/-- The new file is not shadowed: it is the latest. -/
theorem latest_taken_of_not_shadows (content : List UInt8) (h : ¬ d.Outranks offset)
    (hs : ¬ d.Shadows offset place) :
    ∃ m, (d.taken offset content place).latest = some m ∧ m.text = snapshotName offset := by
  refine ⟨_, latest_taken_of_not_outranks content place h, ?_⟩
  cases hfirst : (d.matching ((d.erase (tmpSnapshotName offset)).front (snapshotName offset)
      place)).find? fun m => decide (m.index = offset) with
  | none => exact text_snapshotMatch offset
  | some m => exact not_not.mp fun htext => hs ⟨m, hfirst, htext⟩

/-- The new file is shadowed: the file that shadows it is the latest, as it was. -/
theorem latest_taken_of_shadows (content : List UInt8) (h : ¬ d.Outranks offset)
    (hs : d.Shadows offset place) :
    ∃ m, (d.taken offset content place).latest = some m ∧ d.latest = some m ∧
      m.text ≠ snapshotName offset := by
  obtain ⟨m, hfirst, htext⟩ := hs
  have hfirst' : _ = some m := hfirst
  have htaken := latest_taken_of_not_outranks content place h
  rw [hfirst', Option.getD_some] at htaken
  refine ⟨m, htaken, ?_, htext⟩
  obtain ⟨front, back, rfl, htaken', hbefore⟩ := snapshots_taken d offset content place
  rcases hbefore with ⟨-, hbefore⟩ | hbefore
  · rw [latest, hbefore]
    refine pickMax_of_front (x := snapshotMatch offset) (fun m' hm' => ?_) ?_
    · rw [index_snapshotMatch]
      exact Nat.le_of_not_lt fun hlt => h ⟨m', hbefore ▸ hm', hlt⟩
    · rwa [index_snapshotMatch]
  · rw [latest, hbefore, ← htaken']
    exact htaken

/-- The temporary file changes nothing. -/
theorem latest_put_tmp :
    (d.put (tmpSnapshotName offset) content place).findLatestSnapshotOffset =
        d.findLatestSnapshotOffset ∧
      (d.put (tmpSnapshotName offset) content place).loadLatestSnapshot =
        d.loadLatestSnapshot := by
  have hsnapshots : (d.put (tmpSnapshotName offset) content place).snapshots = d.snapshots :=
    snapshots_put_of_none (searchSnapshot_tmpSnapshotName d.path offset)
  refine latest_congr ?_ ?_ fun m _ => ?_
  · rw [Overflows, Overflows, hsnapshots]
  · rw [latest, latest, hsnapshots]
  · rw [find?_put, if_neg (m.text_ne_tmpSnapshotName offset).symm]

/-- A file that is loaded is there. -/
theorem find?_of_loadLatestSnapshot (h : d.loadLatestSnapshot = .ok (some (n, content))) :
    d.find? n = some content := by
  rw [loadLatestSnapshot_eq] at h
  split at h
  · cases h
  · cases hm : d.latest with
    | none =>
      rw [hm] at h
      cases h
    | some m =>
      rw [hm, Option.bind_some] at h
      obtain ⟨c, hc, heq⟩ := Option.map_eq_some_iff.mp (Except.ok.inj h)
      cases heq
      exact hc

/-- What is loaded when the snapshot is the latest. -/
theorem load_taken_of_latest {m : SnapshotMatch}
    (hfits : ¬ (d.taken offset content place).Overflows)
    (hm : (d.taken offset content place).latest = some m) (htext : m.text = snapshotName offset) :
    (d.taken offset content place).findLatestSnapshotOffset = .ok (some offset) ∧
      (d.taken offset content place).loadLatestSnapshot =
        .ok (some (snapshotName offset, content)) := by
  have hindex : m.index = offset := by
    rw [← index_snapshotMatch offset]
    exact SnapshotMatch.index_eq_of_text_eq (htext.trans (text_snapshotMatch offset).symm)
  constructor
  · rw [findLatestSnapshotOffset_eq, if_neg hfits, hm, Option.map_some, hindex]
  · rw [loadLatestSnapshot_eq, if_neg hfits, hm, Option.bind_some, htext,
      find?_taken (tmpSnapshotName_ne offset).symm, if_pos rfl, Option.map_some]

theorem find?_taken_of_ne {m : SnapshotMatch} (h : m.text ≠ snapshotName offset) :
    (d.taken offset content place).find? m.text = d.find? m.text := by
  rw [find?_taken (m.text_ne_tmpSnapshotName offset), if_neg (Ne.symm h)]

/-- A snapshot that was there with the same content leaves the selection as it was. -/
theorem latest_taken_of_same (hfits : offset < 2 ^ 63)
    (hsame : d.find? (snapshotName offset) = some content) :
    (d.taken offset content place).findLatestSnapshotOffset = d.findLatestSnapshotOffset ∧
      (d.taken offset content place).loadLatestSnapshot = d.loadLatestSnapshot := by
  have heq : (d.taken offset content place).snapshots = d.snapshots := by
    obtain ⟨front, back, -, hsnapshots, ⟨hnone, -⟩ | hbefore⟩ :=
      snapshots_taken d offset content place
    · rw [hsame] at hnone
      cases hnone
    · rw [hsnapshots, hbefore]
  refine latest_congr ?_ ?_ fun m _ => ?_
  · exact overflows_taken_iff.trans (or_iff_left (Nat.not_le.mpr hfits))
  · rw [latest, latest, heq]
  · by_cases htext : m.text = snapshotName offset
    · rw [htext, find?_taken (tmpSnapshotName_ne offset).symm, if_pos rfl, hsame]
    · exact find?_taken_of_ne htext

/-- A number that does not fit stops the selection, unless it was stopped before. -/
theorem latest_taken_of_large (content : List UInt8) (place : ℕ) (hlarge : 2 ^ 63 ≤ offset) :
    ((d.taken offset content place).findLatestSnapshotOffset = d.findLatestSnapshotOffset ∧
      (d.taken offset content place).loadLatestSnapshot = d.loadLatestSnapshot) ↔
    d.Overflows := by
  have hover : (d.taken offset content place).Overflows :=
    overflows_taken_iff.mpr (Or.inr hlarge)
  constructor
  · rintro ⟨hfind, -⟩
    rw [findLatestSnapshotOffset_eq, if_pos hover, findLatestSnapshotOffset_eq] at hfind
    split at hfind
    · next hbefore => exact hbefore
    · cases hfind
  · intro hbefore
    constructor
    · rw [findLatestSnapshotOffset_eq, findLatestSnapshotOffset_eq, if_pos hover, if_pos hbefore]
    · rw [loadLatestSnapshot_eq, loadLatestSnapshot_eq, if_pos hover, if_pos hbefore]

/-- **When a snapshot that is made leaves the selection as it was.** -/
theorem latest_taken_same_iff (d : SnapshotDir) (offset : ℕ) (content : List UInt8) (place : ℕ) :
    ((d.taken offset content place).findLatestSnapshotOffset = d.findLatestSnapshotOffset ∧
      (d.taken offset content place).loadLatestSnapshot = d.loadLatestSnapshot) ↔
    (d.Outranks offset ∨
      (offset < 2 ^ 63 ∧
        (d.Shadows offset place ∨ d.find? (snapshotName offset) = some content)) ∨
      (2 ^ 63 ≤ offset ∧ d.Overflows)) := by
  by_cases hrank : d.Outranks offset
  · refine iff_of_true ?_ (Or.inl hrank)
    obtain ⟨hlatest, htext⟩ := latest_taken_of_outranks content place hrank
    refine latest_congr ?_ hlatest fun m hm => find?_taken_of_ne (htext m hm)
    obtain ⟨m, hm, hlt⟩ := hrank
    exact overflows_taken_iff.trans (or_iff_left_of_imp fun hlarge => ⟨m, hm, hlarge.trans hlt.le⟩)
  by_cases hfits : offset < 2 ^ 63
  · have hlarge : ¬ 2 ^ 63 ≤ offset := Nat.not_le.mpr hfits
    have hiff : (d.taken offset content place).Overflows ↔ d.Overflows :=
      overflows_taken_iff.trans (or_iff_left hlarge)
    rw [or_iff_right hrank, and_iff_right hfits, or_iff_left fun hcon => hlarge hcon.1]
    by_cases hshadow : d.Shadows offset place
    · obtain ⟨m, htaken, hbefore, htext⟩ := latest_taken_of_shadows content hrank hshadow
      refine iff_of_true (latest_congr hiff (htaken.trans hbefore.symm) fun m' hm' => ?_)
        (Or.inl hshadow)
      obtain rfl : m = m' := Option.some.inj (hbefore.symm.trans hm')
      exact find?_taken_of_ne htext
    · obtain ⟨m, htaken, htext⟩ := latest_taken_of_not_shadows content hrank hshadow
      rw [or_iff_right hshadow]
      refine ⟨fun ⟨_, hload⟩ => ?_, latest_taken_of_same hfits⟩
      have hover : ¬ (d.taken offset content place).Overflows := by
        intro hcon
        obtain ⟨m, hm, hm'⟩ := hiff.mp hcon
        exact hrank ⟨m, hm, hfits.trans_le hm'⟩
      rw [(load_taken_of_latest hover htaken htext).2] at hload
      exact find?_of_loadLatestSnapshot hload.symm
  · have hlarge : 2 ^ 63 ≤ offset := Nat.le_of_not_lt hfits
    rw [or_iff_right hrank, or_iff_right fun hcon => hfits hcon.1, and_iff_right hlarge]
    exact latest_taken_of_large content place hlarge

/-- **When a snapshot that is made is the latest**, if no number is larger. -/
theorem latest_taken_iff (d : SnapshotDir) (offset : ℕ) (content : List UInt8) (place : ℕ) :
    ((∀ m ∈ d.snapshots, m.index ≤ offset) →
      (d.taken offset content place).findLatestSnapshotOffset = .ok (some offset) ∧
      (d.taken offset content place).loadLatestSnapshot =
        .ok (some (snapshotName offset, content))) ↔
    (d.Outranks offset ∨ (offset < 2 ^ 63 ∧ ¬ d.Shadows offset place)) := by
  by_cases hrank : d.Outranks offset
  · refine iff_of_true (fun hle => ?_) (Or.inl hrank)
    obtain ⟨m, hm, hlt⟩ := hrank
    exact absurd (hle m hm) (by omega)
  have hle : ∀ m ∈ d.snapshots, m.index ≤ offset := fun m hm =>
    Nat.le_of_not_lt fun hlt => hrank ⟨m, hm, hlt⟩
  have hover : (d.taken offset content place).Overflows ↔ 2 ^ 63 ≤ offset := by
    rw [overflows_taken_iff]
    exact or_iff_right_of_imp fun ⟨m, hm, hlarge⟩ => hlarge.trans (hle m hm)
  constructor
  · intro h
    obtain ⟨hfind, hload⟩ := h hle
    refine Or.inr ⟨?_, fun hshadow => ?_⟩
    · by_contra hfits
      rw [findLatestSnapshotOffset_eq, if_pos (hover.mpr (Nat.le_of_not_lt hfits))] at hfind
      cases hfind
    · -- the other file would be loaded
      obtain ⟨m, htaken, -, htext⟩ := latest_taken_of_shadows content hrank hshadow
      rw [loadLatestSnapshot_eq, htaken] at hload
      split at hload
      · cases hload
      · obtain ⟨c, -, heq⟩ := Option.map_eq_some_iff.mp (Except.ok.inj hload)
        exact htext (congrArg Prod.fst heq)
  · rintro (hcon | ⟨hfits, hshadow⟩) -
    · exact absurd hcon hrank
    · obtain ⟨m, htaken, htext⟩ := latest_taken_of_not_shadows content hrank hshadow
      exact load_taken_of_latest (fun hcon => absurd (hover.mp hcon) (by omega)) htaken htext

end SnapshotDir

open SnapshotDir in
/-- **A failed attempt never becomes the latest snapshot, and a successful one does**, for every
directory, offset and course of the attempt that returns, exactly in these cases: the temporary
file is not created, or not renamed; a snapshot with a larger number is there; the state machine
says that it has succeeded, the number fits and no other file with this number is listed before; or
it says that it has failed and such a file is, or the snapshot was there with the same content, or
the search did not succeed before. -/
theorem failed_snapshot_never_latest_iff {d d' : SnapshotDir} {offset : ℕ} {a : SnapshotAttempt}
    {result : Bool} {path : List UInt8}
    (h : d.takeSnapshotAndPersist offset a = .ok (d', result, path)) :
    ((result = false → d'.findLatestSnapshotOffset = d.findLatestSnapshotOffset ∧
        d'.loadLatestSnapshot = d.loadLatestSnapshot) ∧
      (result = true → (∀ m ∈ d.snapshots, m.index ≤ offset) →
        d'.findLatestSnapshotOffset = .ok (some offset) ∧
        d'.loadLatestSnapshot = .ok (some (snapshotName offset, a.written)))) ↔
    (a.created = false ∨ a.renamed = false ∨ d.Outranks offset ∨
      (a.reports = some true ∧ offset < 2 ^ 63 ∧ ¬ d.Shadows offset a.place) ∨
      (a.reports = some false ∧ offset < 2 ^ 63 ∧
        (d.Shadows offset a.place ∨ d.find? (snapshotName offset) = some a.written)) ∨
      (a.reports = some false ∧ 2 ^ 63 ≤ offset ∧ d.Overflows)) := by
  rcases takeSnapshotAndPersist_cases h with ⟨hcreated, rfl, rfl⟩ | ⟨hrenamed, rfl, rfl⟩ |
    ⟨hcreated, hrenamed, hpersisted, rfl⟩
  · exact iff_of_true ⟨fun _ => ⟨rfl, rfl⟩, nofun⟩ (Or.inl hcreated)
  · exact iff_of_true ⟨fun _ => latest_put_tmp, nofun⟩ (Or.inr (Or.inl hrenamed))
  · have hreports : a.reports = some result := by
      rw [SnapshotAttempt.reports, hpersisted, Option.map_some]
    cases result with
    | false =>
      have hiff := latest_taken_same_iff d offset a.written a.place
      simp only [hcreated, hrenamed, hreports, Option.some.injEq, Bool.true_eq_false,
        Bool.false_eq_true, false_and, false_or, true_and, forall_const, false_implies, and_true]
      exact hiff
    | true =>
      have hiff := latest_taken_iff d offset a.written a.place
      simp only [hcreated, hrenamed, hreports, Option.some.injEq, Bool.true_eq_false, false_and,
        false_or, or_false, true_and, forall_const, false_implies]
      exact hiff

namespace Scenario

/-- An attempt in which everything works, but `createSnapshotAndPersist` says that it has failed,
after one byte. -/
def failingAttempt : SnapshotAttempt := ⟨true, some (false, [1]), true, true, true, 0, 0⟩

/-- An attempt in which everything works. -/
def workingAttempt : SnapshotAttempt := ⟨true, some (true, [1, 2]), true, true, true, 0, 0⟩

/-- A directory with one snapshot. -/
def oneSnapshot : SnapshotDir where
  path := bytesOf "/data"
  files := [(bytesOf "5.snapshot", [1, 2, 3])]
  nodup := List.nodup_singleton _

end Scenario

/-- **A failed snapshot is the latest.** The directory has a snapshot at `5`. An attempt at `8` says
that it has failed, and what it has written is what is loaded from then on. -/
theorem failed_snapshot_is_latest :
    Scenario.oneSnapshot.loadLatestSnapshot = .ok (some (bytesOf "5.snapshot", [1, 2, 3])) ∧
      ∃ d', Scenario.oneSnapshot.takeSnapshotAndPersist 8 Scenario.failingAttempt =
          .ok (d', false, bytesOf "/data/8.snapshot") ∧
        d'.findLatestSnapshotOffset = .ok (some 8) ∧
        d'.loadLatestSnapshot = .ok (some (bytesOf "8.snapshot", [1])) :=
  ⟨rfl, _, rfl, rfl, rfl⟩

theorem failed_snapshot_never_latest_iff_working :
    ∃ d', Scenario.oneSnapshot.takeSnapshotAndPersist 8 Scenario.workingAttempt =
        .ok (d', true, bytesOf "/data/8.snapshot") ∧
      d'.findLatestSnapshotOffset = .ok (some 8) ∧
      d'.loadLatestSnapshot = .ok (some (snapshotName 8, [1, 2])) := by
  obtain ⟨d', hd'⟩ : ∃ d', Scenario.oneSnapshot.takeSnapshotAndPersist 8 Scenario.workingAttempt =
      .ok (d', true, bytesOf "/data/8.snapshot") := ⟨_, rfl⟩
  have hcond : ¬ Scenario.oneSnapshot.Shadows 8 Scenario.workingAttempt.place := by
    decide +kernel
  have hall := ((failed_snapshot_never_latest_iff hd').mpr
    (Or.inr (Or.inr (Or.inr (Or.inl ⟨rfl, by decide, hcond⟩))))).2 rfl (by decide +kernel)
  exact ⟨d', hd', hall⟩

end Gringofts
