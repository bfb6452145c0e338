import Gringofts.App.EventStore
import Gringofts.Storage.ByteLayout

/-!
# Key rotation

Keys are added in the course of time, and an entry carries the version of the key it was encrypted
and authenticated with. Entries from before there were versions carry none; they belong to the
oldest key. Whatever keys are added, the entries of a segment can still be verified and decrypted.

## What the search depends on

Verification does not look at the version in the entry. It tries all versions, beginning with the
one that was right the last time, and that version is state shared by all readers of the segment.
Since the search goes once around, it finds the key from wherever it begins, and what it leaves
behind is again a version. So neither the order of the reads nor a reader that began with an older
value of the state makes a difference.

## Main definitions

* `Cipher` — encryption under a key, with its inverse
* `CryptoUtil.encrypt`, `CryptoUtil.decrypt`, `CryptoUtil.decoder`
* `CryptoUtil.Persists` — what `persistAsync` and `dequeue` make of a command and its events

## Main results

* `CryptoUtil.Grows.decode_of_persists` — old payloads can be read with more keys
* `key_rotation_keeps_entries` — every entry is verified, read and decrypted, in every run
-/

namespace Gringofts

variable {κ ε : Type}

/-! ## Encryption -/

/-- Encryption under a key. Decryption may fail, but not on what was encrypted under that key. -/
structure Cipher (κ : Type) where
  encrypt : κ → List UInt8 → List UInt8
  decrypt : κ → List UInt8 → Option (List UInt8)
  decrypt_encrypt : ∀ key plain, decrypt key (encrypt key plain) = some plain

namespace CryptoUtil

variable (u : CryptoUtil κ) (cipher : Cipher κ)

/-- `encrypt`: nothing is done where encryption is not enabled. There is no result without the
key. -/
def encrypt (payload : List UInt8) (version : ℕ) : Option (List UInt8) :=
  if u.enabled then (u.getKeyByVersion version).map fun key => cipher.encrypt key payload
  else some payload

/-- `decrypt`. -/
def decrypt (payload : List UInt8) (version : ℕ) : Option (List UInt8) :=
  if u.enabled then (u.getKeyByVersion version).bind fun key => cipher.decrypt key payload
  else some payload

/-- How `ReadonlyRaftCommandEventStore` reads entries with these keys. -/
def decoder (bundles : Codec (Bundle ε) (List UInt8)) : EntryDecoder ε where
  enabled := u.enabled
  decrypt version payload := u.decrypt cipher payload version
  parse := bundles.parse

/-- The entry is what `persistAsync` and `dequeue` make of a command and its events: the payload is
encrypted with the version in the entry, or with the oldest one if there is none. -/
def Persists (bundles : Codec (Bundle ε) (List UInt8)) (e : LogEntry) (b : Bundle ε) : Prop :=
  e.noop = false ∧
    u.encrypt cipher (bundles.serialize b) (EntryDecoder.keyVersion e) = some e.payload

variable {u cipher} {u' : CryptoUtil κ} {bundles : Codec (Bundle ε) (List UInt8)}
  {codec : Codec LogEntry (List UInt8)} {e : LogEntry} {b : Bundle ε}

/-- What was encrypted is decrypted, with more keys. -/
theorem Grows.decrypt_encrypt (h : u.Grows u') {version : ℕ} {plain payload : List UInt8}
    (hlatest : u.enabled = true → version ≤ u.keys.length)
    (henc : u.encrypt cipher plain version = some payload) :
    u'.decrypt cipher payload version = some plain := by
  rw [encrypt] at henc
  rw [decrypt, h.enabled_eq]
  by_cases hen : u.enabled = true
  · rw [if_pos hen] at henc ⊢
    rw [h.getKeyByVersion_eq (hlatest hen)]
    obtain ⟨key, hkey, rfl⟩ := Option.map_eq_some_iff.mp henc
    rw [hkey]
    exact cipher.decrypt_encrypt key plain
  · rw [if_neg hen] at henc ⊢
    exact henc.symm

/-- **Old payloads can be read.** An entry that was written when its key was known is decoded, with
more keys, to what it was made of. -/
theorem Grows.decode_of_persists (h : u.Grows u') (hknown : (u.env codec).Knows e)
    (hpersists : u.Persists cipher bundles e b) :
    (u'.decoder cipher bundles).decode e = some b := by
  have hlatest : u.enabled = true → EntryDecoder.keyVersion e ≤ u.keys.length := by
    intro hen
    have hle : StorageEnv.keyVersion e ≤ u.getLatestSecKeyVersion := hknown hen
    rwa [getLatestSecKeyVersion, if_pos hen] at hle
  have hplain := h.decrypt_encrypt hlatest hpersists.2
  have hpayload : (u'.decoder cipher bundles).payload e = some (bundles.serialize b) := by
    rw [EntryDecoder.payload]
    split
    · exact hplain
    · next hen =>
      have hen : ¬ u'.enabled = true := hen
      rwa [decrypt, if_neg hen] at hplain
  rw [EntryDecoder.decode, hpayload]
  exact bundles.parse_serialize b

end CryptoUtil

/-! ## Decrypting several entries -/

/-- What `decryptEntries` makes of entries that can all be decoded. A bundle is paired with each
entry that is not a no-op; those without events are left out. -/
theorem EntryDecoder.decryptEntries_of_decode (d : EntryDecoder ε)
    (xs : List (LogEntry × Option (Bundle ε)))
    (h : ∀ e b, (e, b) ∈ xs → (e.noop = true ∧ b = none) ∨
      ∃ b', b = some b' ∧ e.noop = false ∧ d.decode e = some b') :
    d.decryptEntries (xs.map Prod.fst) =
      some ((xs.filterMap Prod.snd).filter fun b => b.events.isEmpty = false) := by
  induction xs with
  | nil => rfl
  | cons x xs ih =>
    obtain ⟨e, b⟩ := x
    have hrest := ih fun e b hmem => h e b (List.mem_cons_of_mem _ hmem)
    rw [List.map_cons, EntryDecoder.decryptEntries]
    rcases h e b List.mem_cons_self with ⟨hnoop, rfl⟩ | ⟨b', rfl, hnoop, hdecode⟩
    · rw [if_pos hnoop, hrest]
      rfl
    · have hhead : ((e, some b') :: xs).filterMap Prod.snd = b' :: xs.filterMap Prod.snd := rfl
      rw [if_neg (by simp [hnoop]), hdecode, hrest, hhead, List.filter_cons]
      show some (if b'.events.isEmpty = true then _ else _) = _
      cases b'.events.isEmpty <;> rfl

/-! ## Whole runs -/

namespace SegmentLife

variable {codec : Codec LogEntry (List UInt8)} {r : SegmentLife κ} {es : List LogEntry}

/-- **A read succeeds**, from whichever version its search begins. -/
theorem Inv.exists_readEntry (h : Inv codec r es) {recent i : ℕ} {e : LogEntry}
    (hrecent : r.util.enabled = true → 1 ≤ recent ∧ recent ≤ r.util.getLatestSecKeyVersion)
    (hi : r.segment.firstIndex ≤ i) (he : es[i - r.segment.firstIndex]? = some e) :
    ∃ recent', (r.segment.readEntry (r.util.env codec) recent i r.dir).result =
        .ok (some e, recent') ∧
      (r.util.enabled = true → 1 ≤ recent' ∧ recent' ≤ r.util.getLatestSecKeyVersion) := by
  have hget := (Segment.yields_getEntry h.describes.finds hi he).result
  rw [← Segment.readEntry_fst _ _ recent] at hget
  cases hread : (r.segment.readEntry (r.util.env codec) recent i r.dir).result with
  | error f =>
    rw [Outcome.bind_result_of_error hread] at hget
    cases hget
  | ok x =>
    obtain ⟨y, recent'⟩ := x
    have hfst : (do
        let x ← r.segment.readEntry (r.util.env codec) recent i r.dir
        pure x.1 : Disk (Option LogEntry)).result = .ok y := by
      change (Outcome.bind _ _).result = _
      rw [Outcome.bind, hread]
      rfl
    rw [hfst] at hget
    cases hget
    exact ⟨recent', rfl, fun hen => Segment.recent_of_readEntry hread (hrecent hen)⟩

end SegmentLife

/-- **Key rotation never invalidates old entries.** In every run of a segment, with keys added at
any time: the recently used version is one of the versions; the search from any version tries every
version once; every entry in the segment is read as it was written last, whichever version the
search begins with, and what that leaves is again a version; and entries of the segment are
decrypted to the commands and events they were made of under the keys of their time. -/
theorem key_rotation_keeps_entries (cipher : Cipher κ) (bundles : Codec (Bundle ε) (List UInt8))
    {codec : Codec LogEntry (List UInt8)} {r : SegmentLife κ} (h : SegmentLife.Reached codec r) :
    (r.util.enabled = true → 1 ≤ r.recent ∧ r.recent ≤ r.util.getLatestSecKeyVersion) ∧
    (∀ recent, (Crypto.tryVersions r.util.getLatestSecKeyVersion recent).Perm
      ((List.range r.util.getLatestSecKeyVersion).map (· + 1))) ∧
    (∀ recent, (r.util.enabled = true → 1 ≤ recent ∧ recent ≤ r.util.getLatestSecKeyVersion) →
      ∀ i, r.segment.firstIndex ≤ i → i ≤ r.segment.lastIndex →
        ∃ u e recent', r.latest i = some (u, e) ∧
          (r.segment.readEntry (r.util.env codec) recent i r.dir).result =
            .ok (some e, recent') ∧
          (r.util.enabled = true →
            1 ≤ recent' ∧ recent' ≤ r.util.getLatestSecKeyVersion)) ∧
    ∀ xs : List (LogEntry × Option (Bundle ε)),
      (∀ e b, (e, b) ∈ xs → ∃ i u, r.segment.firstIndex ≤ i ∧ i ≤ r.segment.lastIndex ∧
        r.latest i = some (u, e) ∧
        ((e.noop = true ∧ b = none) ∨ ∃ b', b = some b' ∧ u.Persists cipher bundles e b')) →
      (r.util.decoder cipher bundles).decryptEntries (xs.map Prod.fst) =
        some ((xs.filterMap Prod.snd).filter fun b => b.events.isEmpty = false) := by
  obtain ⟨es, hinv⟩ := h.inv
  have hlast := hinv.describes.last_eq
  refine ⟨hinv.recent, Crypto.tryVersions_perm _, fun recent hrecent i hi hi' => ?_,
    fun xs hxs => ?_⟩
  · have hget : es[i - r.segment.firstIndex]? = some es[i - r.segment.firstIndex] :=
      List.getElem?_eq_getElem (by omega)
    obtain ⟨u, hlatest, -⟩ := hinv.latest _ _ hget
    rw [Nat.add_sub_cancel' hi] at hlatest
    obtain ⟨recent', hread, hrange⟩ := hinv.exists_readEntry hrecent hi hget
    exact ⟨u, _, recent', hlatest, hread, hrange⟩
  · refine EntryDecoder.decryptEntries_of_decode _ xs fun e b hmem => ?_
    obtain ⟨i, u, hi, hi', hlatest, hnoop | ⟨b', rfl, hpersists⟩⟩ := hxs e b hmem
    · exact Or.inl hnoop
    · -- the keys of the time of writing are among the present ones
      have hget : es[i - r.segment.firstIndex]? = some es[i - r.segment.firstIndex] :=
        List.getElem?_eq_getElem (by omega)
      obtain ⟨u₀, hlatest₀, hgrow, hknown⟩ := hinv.latest _ _ hget
      rw [Nat.add_sub_cancel' hi, hlatest] at hlatest₀
      cases hlatest₀
      exact Or.inr ⟨b', rfl, hpersists.1, hgrow.decode_of_persists hknown hpersists⟩

/-! ## Two keys -/

namespace Scenario

/-- Adding the key to every byte. -/
def addKey : Cipher UInt8 where
  encrypt key plain := plain.map (· + key)
  decrypt key payload := some (payload.map (· - key))
  decrypt_encrypt key plain := by simp [Function.comp_def]

/-- Keys that are one byte each. -/
def byteKeys (keys : List UInt8) (h : keys ≠ []) : CryptoUtil UInt8 where
  enabled := true
  keys := keys
  sha256 key m := (m.map UInt8.toNat).sum + key.toNat + 1
  keys_ne_nil _ := h

/-- A bundle as bytes: the id of the command, and its events. -/
def byteBundles : Codec (Bundle UInt8) (List UInt8) :=
  (Framing.nat.pair Framing.byte.list).map (fun b => (b.commandId, b.events))
    (fun x => ⟨x.1, x.2⟩) (fun _ => rfl) |>.toCodec

/-- An entry from before there were versions, under the first key. -/
def unversioned : LogEntry :=
  ⟨1, 1, false, 0, (byteBundles.serialize ⟨1, [40]⟩).map (· + 7), 0, none⟩

/-- An entry under the second key. -/
def versioned : LogEntry :=
  ⟨1, 2, false, 0, (byteBundles.serialize ⟨2, [41]⟩).map (· + 9), 2, none⟩

/-- The first key. -/
def oneKey : CryptoUtil UInt8 := byteKeys [7] (by simp)

/-- Both keys. -/
def twoKeys : CryptoUtil UInt8 := byteKeys [7, 9] (by simp)

theorem grows_oneKey : oneKey.Grows twoKeys := ⟨rfl, rfl, [9], rfl⟩

open SegmentLife Segment in
/-- An entry is appended under the first key and one under the second, and the segment is closed and
opened again. -/
theorem exists_rotated : ∃ r : SegmentLife UInt8, Reached format r ∧ r.util = twoKeys ∧
    r.segment.firstIndex = 1 ∧ r.segment.lastIndex = 2 ∧
    r.latest 1 = some (oneKey, unversioned) ∧ r.latest 2 = some (twoKeys, versioned) := by
  have hroom : ¬ (Segment.fresh pageSize pageSize 1).shouldRoll (oneKey.env format)
      [unversioned] := by
    decide +kernel
  have hroom' : ¬ ((Segment.fresh pageSize pageSize 1).extend (oneKey.env format)
      [unversioned]).shouldRoll (twoKeys.env format) [versioned] := by decide +kernel
  have h₀ : (Segment.fresh pageSize pageSize 1).Describes (oneKey.env format)
      (created pageSize pageSize 1 Directory.empty) [] :=
    describes_fresh_created 1 le_rfl Directory.empty
  have r₀ : Reached format _ :=
    .create oneKey le_rfl (yields_createActiveSegment .onePage 1 Directory.empty).result
  obtain ⟨ws₁, d₁, hrun₁, h₁, -⟩ := yields_appendEntries h₀ rfl (by
    intro j e hj
    match j with
    | 0 => cases hj; rfl) (by
    intro e he
    cases List.mem_singleton.mp he
    decide) hroom
  have r₁ := r₀.step (.append [unversioned] (by decide) hroom hrun₁.result)
  have r₂ := r₁.step (.rotate twoKeys grows_oneKey)
  obtain ⟨ws₃, d₃, hrun₃, h₃, -⟩ := yields_appendEntries (h₁.grows grows_oneKey) rfl (by
    intro j e hj
    match j with
    | 0 => cases hj; rfl) (by
    intro e he
    cases List.mem_singleton.mp he
    decide) hroom'
  have r₃ := r₂.step (.append [versioned] (by decide) hroom' hrun₃.result)
  have r₄ := r₃.step (.closeActiveSegment (yields_closeActiveSegment h₃ rfl).result)
  have r₅ := r₄.step (.recover 0 0 (Or.inl rfl) (Or.inl rfl)
    (yields_recover_closed (h₃.close rfl)).result)
  exact ⟨_, r₅, rfl, rfl, rfl, rfl, rfl⟩

end Scenario

open Scenario in
theorem key_rotation_keeps_entries_rotated :
    ∃ r : SegmentLife UInt8, SegmentLife.Reached format r ∧
      (∃ recent', (r.segment.readEntry (r.util.env format) 2 1 r.dir).result =
        .ok (some unversioned, recent')) ∧
      (r.util.decoder addKey byteBundles).decryptEntries [unversioned, versioned] =
        some [⟨1, [40]⟩, ⟨2, [41]⟩] := by
  obtain ⟨r, hr, hutil, hfirst, hlast, h1, h2⟩ := exists_rotated
  obtain ⟨-, -, hread, hdecrypt⟩ := key_rotation_keeps_entries addKey byteBundles hr
  refine ⟨r, hr, ?_, ?_⟩
  · obtain ⟨u, e, recent', he, hres, -⟩ := hread 2 (fun _ => by rw [hutil]; decide) 1 (by omega)
      (by omega)
    rw [h1] at he
    cases he
    exact ⟨recent', hres⟩
  · refine hdecrypt [(unversioned, some ⟨1, [40]⟩), (versioned, some ⟨2, [41]⟩)] ?_
    intro e b hmem
    rcases List.mem_cons.mp hmem with heq | hmem
    · cases heq
      exact ⟨1, oneKey, by omega, by omega, h1, Or.inr ⟨_, rfl, rfl, rfl⟩⟩
    · cases List.mem_singleton.mp hmem
      exact ⟨2, twoKeys, by omega, by omega, h2, Or.inr ⟨_, rfl, rfl, rfl⟩⟩

end Gringofts
