import Gringofts.Lib.Decimal
import Gringofts.Storage.Segment
import Mathlib.Data.List.Rotate
import Mathlib.Logic.Equiv.List

/-!
# Authenticating records

The record of an entry carries a digest of the index and the bytes of the entry. What is hashed is
the index in decimal and then the bytes, with nothing between the two, and the key is one of those
that were in use so far. Which one it was is not written down: verification tries them all, and
begins with the one that was right the last time.

## What the digest binds

Whoever moves a byte from the number to the bytes, or the other way, hashes the same message. So a
digest binds the index and the bytes only where the two can be told apart: for an index of one
digit, before bytes that do not begin with a digit.

## Main definitions

* `CryptoUtil` — the keys, and the hash that is computed with them
* `Crypto.createHMAC`, `Crypto.verifyHMAC`
* `Segment.readEntry` — reading an entry, with the recently used version

## Main results

* `tryVersions_perm` — verification tries every version once
* `Crypto.isSome_verifyHMAC_iff` — it accepts what is authentic
* `digest_binds_iff`, `digest_of_another_entry`
-/

namespace Gringofts

open Outcome

variable {recent recent' i version : ℕ} {b c : List UInt8} {r : LogMeta}

/-! ## Digests -/

namespace Crypto

variable (crypto : Crypto)

/-- `createHMAC`: the digest for a record. The record was cleared before, so without a key its
digest is `0`. -/
def createHMAC (version index : ℕ) (bytes : List UInt8) : ℕ :=
  if crypto.enabled then crypto.hmac version index bytes else 0

/-- The versions in the order in which `verifyHMAC` tries them. -/
def tryVersions (latestVersion recentKeyVersion : ℕ) : List ℕ :=
  (List.range latestVersion).map fun i => (recentKeyVersion - 1 + i) % latestVersion + 1

/-- `verifyHMAC`, with `mRecentUsedSecKeyVersion` before and after. There is none after an
assertion that failed. -/
def verifyHMAC (recentKeyVersion : ℕ) (m : LogMeta) (bytes : List UInt8) : Option ℕ :=
  if crypto.enabled = false then some recentKeyVersion
  else if m.digest = 0 then some recentKeyVersion
  else (tryVersions crypto.latest recentKeyVersion).find? fun tryVersion =>
    crypto.hmac tryVersion m.index bytes = m.digest

end Crypto

/-! ## Trying the versions -/

namespace Crypto

/-- The search goes once around, from where it begins. -/
theorem tryVersions_eq_rotate (latest recent : ℕ) :
    tryVersions latest recent = ((List.range latest).rotate (recent - 1)).map (· + 1) := by
  refine List.ext_getElem ?_ fun i h1 h2 => ?_
  · simp [tryVersions]
  · simp only [tryVersions, List.getElem_map, List.getElem_rotate, List.getElem_range,
      List.length_range]
    rw [Nat.add_comm (recent - 1) i]

/-- **Every version is tried once**, wherever the search begins. -/
theorem tryVersions_perm (latest recent : ℕ) :
    (tryVersions latest recent).Perm ((List.range latest).map (· + 1)) := by
  rw [tryVersions_eq_rotate]
  exact (List.rotate_perm _ _).map _

theorem mem_tryVersions {latest v : ℕ} : v ∈ tryVersions latest recent ↔ 1 ≤ v ∧ v ≤ latest := by
  rw [(tryVersions_perm latest recent).mem_iff]
  simp only [List.mem_map, List.mem_range]
  constructor
  · rintro ⟨i, hi, rfl⟩
    omega
  · rintro ⟨h1, h2⟩
    exact ⟨v - 1, by omega, by omega⟩

variable {crypto : Crypto} {recent : ℕ} {m : LogMeta} {bytes : List UInt8}

/-- **Verification accepts what is authentic**, whichever version was used most recently. -/
theorem isSome_verifyHMAC_iff {env : StorageEnv} (recent : ℕ) (m : LogMeta) (bytes : List UInt8) :
    (env.crypto.verifyHMAC recent m bytes).isSome ↔ env.Authentic m bytes := by
  rw [verifyHMAC, StorageEnv.Authentic]
  by_cases hen : env.crypto.enabled = true
  · rw [if_neg (by simp [hen])]
    by_cases h0 : m.digest = 0
    · simp [h0]
    · rw [if_neg h0, List.find?_isSome]
      simp only [hen, h0, false_or, true_implies, decide_eq_true_eq,
        (tryVersions_perm _ _).mem_iff, List.mem_map, exists_exists_and_eq_and]
  · rw [if_pos (by simpa using hen)]
    simp [hen]

/-- The version that was used most recently is one of the versions. -/
theorem range_verifyHMAC (h : crypto.verifyHMAC recent m bytes = some recent')
    (hrecent : 1 ≤ recent ∧ recent ≤ crypto.latest) : 1 ≤ recent' ∧ recent' ≤ crypto.latest := by
  rw [verifyHMAC] at h
  split at h
  · cases h
    exact hrecent
  · split at h
    · cases h
      exact hrecent
    · exact mem_tryVersions.mp (List.mem_of_find?_eq_some h)

end Crypto

/-! ## Reading with a recently used version -/

namespace Segment

variable (env : StorageEnv) (s : Segment)

/-- `getEntry`, with `mRecentUsedSecKeyVersion` before and after. -/
def readEntry (recentKeyVersion index : ℕ) (d : Directory) : Disk (Option LogEntry × ℕ) := do
  if s.isWithInBoundary index then
    let m ← s.getMeta index d
    let data ← d.openData s.dataName
    let bytes := data.read m.offset m.length
    Outcome.check (m.offset ≤ s.dataOffset) .entryOffset
    let recent ← Outcome.ofOption .digest (env.crypto.verifyHMAC recentKeyVersion m bytes)
    pure (env.codec.parse bytes, recent)
  else pure (none, recentKeyVersion)

/-- What is read does not depend on the version that was used most recently. -/
theorem readEntry_fst (recent index : ℕ) (d : Directory) :
    (do
      let x ← s.readEntry env recent index d
      pure x.1) = s.getEntry env index d := by
  have hverify : ∀ (m : LogMeta) (bytes : List UInt8),
      (do
        let r ← Outcome.ofOption Fault.digest (env.crypto.verifyHMAC recent m bytes)
        pure (env.codec.parse bytes, r) >>= fun x : Option LogEntry × ℕ => pure x.1) =
      (do
        Outcome.check (env.Authentic m bytes) Fault.digest
        pure (env.codec.parse bytes) : Disk (Option LogEntry)) := by
    intro m bytes
    have hiff : (env.crypto.verifyHMAC recent m bytes).isSome ↔ env.Authentic m bytes :=
      Crypto.isSome_verifyHMAC_iff recent m bytes
    cases hv : env.crypto.verifyHMAC recent m bytes with
    | none =>
      rw [hv] at hiff
      rw [Outcome.check, if_neg fun h => by simpa using hiff.mpr h]
      rfl
    | some r =>
      rw [hv] at hiff
      rw [Outcome.check, if_pos (hiff.mp rfl)]
      rfl
  rw [readEntry, getEntry]
  split
  · simp only [bind_assoc, hverify]
  · rfl

variable {env s}

/-- Reading leaves one of the versions as the recently used one. -/
theorem recent_of_readEntry {d : Directory} {x : Option LogEntry}
    (h : (s.readEntry env recent i d).result = .ok (x, recent'))
    (hrecent : 1 ≤ recent ∧ recent ≤ env.crypto.latest) :
    1 ≤ recent' ∧ recent' ≤ env.crypto.latest := by
  have hsat : (s.readEntry env recent i d).Sat (fun _ => True)
      (fun y => 1 ≤ y.2 ∧ y.2 ≤ env.crypto.latest) fun _ => True := by
    rw [readEntry]
    split
    · refine (s.getMeta i d).sat_trivial.bind fun m _ => ?_
      refine (d.openData s.dataName).sat_trivial.bind fun data _ => ?_
      refine sat_check_bind (fun _ => trivial) fun _ => ?_
      refine Sat.bind (sat_ofOption.mpr ⟨fun _ h => h, fun _ => trivial⟩)
        fun r hr => sat_pure.mpr ?_
      exact Crypto.range_verifyHMAC hr hrecent
    · exact sat_pure.mpr hrecent
  exact hsat.of_result h

end Segment

/-! ## Keys and messages -/

/-- `CryptoUtil`, with the keys of its `SecretKey` and the hash of the library it calls. -/
structure CryptoUtil (κ : Type) where
  /-- `mEnabled` -/
  enabled : Bool
  /-- `mAllKeys` from version `1` on. -/
  keys : List κ
  /-- The library's HMAC of a message under a key. -/
  sha256 : κ → List UInt8 → ℕ
  /-- Where there is no key, nothing is enabled. -/
  keys_ne_nil : enabled = true → keys ≠ []

namespace CryptoUtil

variable {κ : Type} (u : CryptoUtil κ)

/-- `getLatestSecKeyVersion`. -/
def getLatestSecKeyVersion : ℕ := if u.enabled then u.keys.length else 0

/-- `getKeyByVersion`. For a version without a key it ends the process. -/
def getKeyByVersion : ℕ → Option κ
  | 0 => none
  | version + 1 => u.keys[version]?

/-- `hmac` -/
def hmac (message : List UInt8) (version : ℕ) : Option ℕ := do
  let key ← u.getKeyByVersion version
  some (u.sha256 key message)

/-- What is hashed for a record: the index in decimal, and the bytes of the entry. -/
def message (index : ℕ) (bytes : List UInt8) : List UInt8 := decimal index ++ bytes

/-- `createHMAC` with these keys. There is no digest where the process ends. -/
def createHMAC (version index : ℕ) (bytes : List UInt8) : Option ℕ :=
  if u.enabled then u.hmac (message index bytes) version else some 0

/-- What a segment sees of it. The versions that it asks for have a key. -/
def toCrypto : Crypto where
  enabled := u.enabled
  latest := u.getLatestSecKeyVersion
  hmac version index bytes := (u.hmac (message index bytes) version).getD 0
  latest_pos hen := by
    rw [getLatestSecKeyVersion, if_pos hen]
    exact List.length_pos_iff.mpr (u.keys_ne_nil hen)

variable {u}

theorem createHMAC_eq {index digest : ℕ} {bytes : List UInt8}
    (h : u.createHMAC version index bytes = some digest) :
    u.toCrypto.createHMAC version index bytes = digest := by
  rw [createHMAC] at h
  rw [Crypto.createHMAC]
  split at h
  · next hen =>
    exact (if_pos hen).trans (congrArg (Option.getD · 0) h)
  · next hen => exact (if_neg hen).trans (Option.some.inj h)

/-- A digest was computed with one of the keys. -/
theorem exists_key_of_hmac_ne_zero {m : List UInt8} (h : (u.hmac m version).getD 0 ≠ 0) :
    ∃ key, u.getKeyByVersion version = some key ∧
      (u.hmac m version).getD 0 = u.sha256 key m := by
  rw [hmac] at h ⊢
  cases hkey : u.getKeyByVersion version with
  | none => simp [hkey] at h
  | some key => exact ⟨key, rfl, rfl⟩

theorem version_le_of_getKeyByVersion {key : κ} (hen : u.enabled = true)
    (h : u.getKeyByVersion version = some key) : 1 ≤ version ∧ version ≤ u.toCrypto.latest := by
  cases version with
  | zero => cases h
  | succ v =>
    have hlt : v < u.keys.length := (List.getElem?_eq_some_iff.mp h).1
    have hlatest : u.toCrypto.latest = u.keys.length := if_pos hen
    omega

/-- A digest that was created is accepted for whatever gives the same message. -/
theorem isSome_verifyHMAC_of_message (hdigest : r.digest = u.toCrypto.createHMAC version i b)
    (hmessage : message r.index c = message i b) : (u.toCrypto.verifyHMAC recent r c).isSome := by
  rw [Crypto.verifyHMAC]
  split
  · rfl
  · next hen =>
    have hen : u.enabled = true := Bool.not_eq_false _ ▸ hen
    split
    · rfl
    · next h0 =>
      have hcreate : u.toCrypto.createHMAC version i b =
        (u.hmac (message i b) version).getD 0 := if_pos hen
      rw [hdigest, hcreate] at h0
      obtain ⟨key, hkey, -⟩ := exists_key_of_hmac_ne_zero h0
      refine List.find?_isSome.mpr ⟨version,
        Crypto.mem_tryVersions.mpr (version_le_of_getKeyByVersion hen hkey), ?_⟩
      rw [hdigest, hcreate, ← hmessage]
      exact decide_eq_true rfl

/-- What is accepted for a digest gives the message it was created for, if digests do not
collide. -/
theorem message_of_isSome_verifyHMAC (hinj : ∀ key, Function.Injective (u.sha256 key))
    (hkeys : ∀ key key' m m', u.sha256 key m = u.sha256 key' m' → key = key')
    (hdigest : r.digest = u.toCrypto.createHMAC version i b) (h0 : r.digest ≠ 0)
    (haccept : (u.toCrypto.verifyHMAC recent r c).isSome) : message r.index c = message i b := by
  have hen : u.enabled = true := by
    by_contra hen
    exact h0 (hdigest.trans (if_neg hen))
  have hcreate : r.digest = (u.hmac (message i b) version).getD 0 := hdigest.trans (if_pos hen)
  have hdisabled : ¬ u.toCrypto.enabled = false := by
    rw [Bool.not_eq_false]
    exact hen
  rw [Crypto.verifyHMAC, if_neg hdisabled, if_neg h0, List.find?_isSome] at haccept
  obtain ⟨v, -, hv⟩ := haccept
  have hv : (u.hmac (message r.index c) v).getD 0 = r.digest := of_decide_eq_true hv
  obtain ⟨key, -, hkey⟩ := exists_key_of_hmac_ne_zero (hcreate ▸ h0)
  obtain ⟨key', -, hkey'⟩ := exists_key_of_hmac_ne_zero (hv.trans_ne h0)
  have heq : u.sha256 key' (message r.index c) = u.sha256 key (message i b) :=
    hkey'.symm.trans ((hv.trans hcreate).trans hkey)
  rw [hkeys _ _ _ _ heq] at heq
  exact hinj key heq

end CryptoUtil

/-! ## What a digest binds -/

open CryptoUtil

variable {κ : Type}

/-- **What a digest binds.** Where hashes do not collide, a digest that was created for index `i`
and bytes `b` is accepted for nothing else exactly when it is a digest at all (a record without one
is accepted as it is), the index has one digit, and the bytes do not begin with a digit. -/
theorem digest_binds_iff (u : CryptoUtil κ) (hinj : ∀ key, Function.Injective (u.sha256 key))
    (hkeys : ∀ key key' m m', u.sha256 key m = u.sha256 key' m' → key = key') {i : ℕ}
    (hi : 1 ≤ i) (b : List UInt8) (version recent : ℕ) {digest : ℕ}
    (hcreated : u.createHMAC version i b = some digest) :
    (∀ (r : LogMeta) (c : List UInt8), 1 ≤ r.index → r.digest = digest →
        (u.toCrypto.verifyHMAC recent r c).isSome → r.index = i ∧ c = b) ↔
      digest ≠ 0 ∧ i < 10 ∧ ∀ x ∈ b.head?, ¬ IsDigit x := by
  obtain rfl := createHMAC_eq hcreated
  rw [← decimal_append_unique_iff hi]
  constructor
  · intro hbinds
    refine ⟨fun h0 => ?_, fun j c hj hmessage => ?_⟩
    · -- without a digest, any index is accepted
      have haccept : (u.toCrypto.verifyHMAC recent { (default : LogMeta) with index := i + 1 }
          b).isSome := by
        rw [Crypto.verifyHMAC]
        split
        · rfl
        · rfl
      have heq : i + 1 = i := (hbinds { (default : LogMeta) with index := i + 1 } b
        (Nat.le_add_left 1 i) h0.symm haccept).1
      omega
    · exact hbinds
        { (default : LogMeta) with index := j, digest := u.toCrypto.createHMAC version i b } c hj
        rfl (isSome_verifyHMAC_of_message rfl hmessage)
  · rintro ⟨h0, hunique⟩ r c hr hdigest haccept
    exact hunique r.index c hr
      (message_of_isSome_verifyHMAC hinj hkeys hdigest (hdigest.trans_ne h0) haccept)

/-- A hash without collisions, for one key. -/
def CryptoUtil.ideal : CryptoUtil Unit where
  enabled := true
  keys := [()]
  sha256 _ m := Encodable.encode (m.map UInt8.toNat) + 1
  keys_ne_nil _ := by simp

theorem CryptoUtil.injective_ideal (key : Unit) : Function.Injective (ideal.sha256 key) := by
  intro m m' h
  have hlist : m.map UInt8.toNat = m'.map UInt8.toNat :=
    Encodable.encode_injective (Nat.succ.inj h)
  exact List.map_injective_iff.mpr (fun _ _ => UInt8.toNat_inj.mp) hlist

theorem digest_binds_iff_ideal :
    ∃ digest, ideal.createHMAC 1 7 [10] = some digest ∧ digest ≠ 0 ∧
      ∀ (r : LogMeta) (c : List UInt8), 1 ≤ r.index → r.digest = digest →
        (ideal.toCrypto.verifyHMAC 1 r c).isSome → r.index = 7 ∧ c = [10] := by
  refine ⟨ideal.sha256 () (message 7 [10]), rfl, Nat.succ_ne_zero _, (digest_binds_iff ideal
    injective_ideal (fun _ _ _ _ _ => rfl) (by decide) [10] 1 1 rfl).mpr
      ⟨Nat.succ_ne_zero _, by decide, ?_⟩⟩
  intro x hx
  obtain rfl : (10 : UInt8) = x := Option.some.inj hx
  decide

/-- **A digest of another entry is accepted.** The digest that was created for index `12` and the
byte `x` is accepted for index `1` and the bytes `2x`. -/
theorem digest_of_another_entry :
    ∃ (u : CryptoUtil Unit) (r : LogMeta), (∀ key, Function.Injective (u.sha256 key)) ∧
      (∀ key key' m m', u.sha256 key m = u.sha256 key' m' → key = key') ∧
      r.digest = u.toCrypto.createHMAC 1 12 [120] ∧ r.digest ≠ 0 ∧ r.index = 1 ∧
      (u.toCrypto.verifyHMAC 1 r [50, 120]).isSome := by
  let r : LogMeta :=
    { (default : LogMeta) with index := 1, digest := ideal.toCrypto.createHMAC 1 12 [120] }
  have hdigest : r.digest = ideal.toCrypto.createHMAC 1 12 [120] := rfl
  have hmessage : message r.index [50, 120] = message 12 [120] := by decide
  exact ⟨ideal, r, injective_ideal, fun _ _ _ _ _ => rfl, hdigest, Nat.succ_ne_zero _, rfl,
    isSome_verifyHMAC_of_message hdigest hmessage⟩

end Gringofts
