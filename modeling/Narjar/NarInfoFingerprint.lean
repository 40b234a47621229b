import Narjar.NarInfoTrust

/-!
# The signed fingerprint

No field of a fingerprint contains the separator that ends it, so a fingerprint can be taken
apart again and belongs to one set of claims only.
-/
namespace NarInfo

open ByteCodecs NarFormat ManifestFormat ObjectNames TextFields List

variable {Key Signature : Type}

theorem mem_asStr {path : NixStorePath} {byte : UInt8} (h : byte ∈ path.asStr) :
    byte ∈ storePrefix ∨ isStoreNameByte byte = true := by
  rw [NixStorePath.asStr_eq, mem_append] at h
  exact h.imp_right NixStorePath.mem_basename

theorem not_mem_asStr {byte : UInt8} (hd : byte ∉ storePrefix)
    (hn : isStoreNameByte byte = false) (path : NixStorePath) : byte ∉ path.asStr := by
  intro hm
  rcases mem_asStr hm with hf | hf
  · exact hd hf
  · rw [hn] at hf
    cases hf

theorem not_mem_encodeNix32 (h : byte ∉ nix32Alphabet) (digest : Digest) :
    byte ∉ encodeNix32 digest := fun hm => h (mem_encodeNix32 hm)

theorem not_mem_decimal (h : ¬(48 ≤ byte ∧ byte ≤ 57)) (n : ℕ) :
    byte ∉ decimal n := fun hm => h (decimal_digit hm)

theorem asStr_ne_nil (path : NixStorePath) : path.asStr ≠ [] := by
  rw [NixStorePath.asStr_eq]
  exact append_ne_nil_of_left_ne_nil (by decide) _

theorem intercalate_injective {separator : UInt8}
    (hxs : ∀ x ∈ xs, separator ∉ x ∧ x ≠ []) (hys : ∀ y ∈ ys, separator ∉ y ∧ y ≠ [])
    (h : [separator].intercalate xs = [separator].intercalate ys) : xs = ys := by
  have hs : ∀ zs : List Bytes, zs ≠ [] → (∀ z ∈ zs, separator ∉ z ∧ z ≠ []) →
      ([separator].intercalate zs).splitOn separator = zs := by
    intro zs hne hzs
    exact splitOn_intercalate separator (fun z hz => (hzs z hz).1) hne
  -- Without texts the joined text is empty, and no other list of nonempty texts gives that.
  have he : ∀ zs : List Bytes, (∀ z ∈ zs, separator ∉ z ∧ z ≠ []) →
      [separator].intercalate zs = [] → zs = [] := by
    intro zs hzs hn
    by_contra hne
    have ho := hs zs hne hzs
    rw [hn, splitOn_nil] at ho
    exact (hzs [] (ho ▸ mem_singleton_self _)).2 rfl
  by_cases hx : xs = []
  · rw [hx] at h ⊢
    exact (he ys hys h.symm).symm
  · by_cases hy : ys = []
    · rw [hy] at h ⊢
      exact he xs hxs h
    · rw [← hs xs hx hxs, h, hs ys hy hys]

def fingerprintParts (claims : NarInfoClaims) : List Bytes :=
  [ascii ['1'], claims.storePath.asStr, sha256Label ++ encodeNix32 claims.identity.hash,
    decimal claims.identity.size, [44].intercalate (claims.references.map NixStorePath.asStr)]

theorem fingerprint_eq (claims : NarInfoClaims) :
    claims.fingerprint = [59].intercalate (fingerprintParts claims) := by
  have hr : (claims.references.map NixStorePath.basename).map (storePrefix ++ ·) =
      claims.references.map NixStorePath.asStr := by
    rw [map_map]
    rfl
  simp only [NarInfoClaims.fingerprint, buildFingerprint, hr, fingerprintParts,
    List.intercalate, List.intersperse, flatten_cons, flatten_nil, append_nil, append_assoc]
  rfl

theorem mem_intercalate
    (h : byte ∈ [separator].intercalate xs) : byte = separator ∨ ∃ x ∈ xs, byte ∈ x := by
  obtain ⟨part, hp, hb⟩ := mem_flatten.1 h
  induction xs with
  | nil => cases hp
  | cons x xs ih =>
    cases xs with
    | nil =>
      rw [intersperse_singleton, mem_singleton] at hp
      exact .inr ⟨x, mem_cons_self, hp ▸ hb⟩
    | cons y ys =>
      rw [intersperse_cons_cons, mem_cons, mem_cons] at hp
      rcases hp with rfl | rfl | hr
      · exact .inr ⟨_, mem_cons_self, hb⟩
      · exact .inl (mem_singleton.1 hb)
      · refine (ih (mem_flatten.2 ⟨part, hr, hb⟩) hr).imp_right ?_
        intro ⟨z, hz, hm⟩
        exact ⟨z, mem_cons_of_mem _ hz, hm⟩

theorem semicolon_not_mem_parts (claims : NarInfoClaims) :
    ∀ part ∈ fingerprintParts claims, 59 ∉ part := by
  intro part hp hm
  have ha : ∀ path : NixStorePath, (59 : UInt8) ∉ path.asStr :=
    not_mem_asStr (by decide) (by decide)
  simp only [fingerprintParts, mem_cons, not_mem_nil, or_false] at hp
  rcases hp with rfl | rfl | rfl | rfl | rfl
  · exact absurd hm (by decide)
  · exact ha _ hm
  · rcases mem_append.1 hm with hl | hh
    · exact absurd hl (by decide)
    · exact not_mem_encodeNix32 (by decide) _ hh
  · exact not_mem_decimal (by decide) _ hm
  · rcases mem_intercalate hm with hc | ⟨text, ht, hb⟩
    · exact absurd hc (by decide)
    · obtain ⟨path, -, rfl⟩ := mem_map.1 ht
      exact ha path hb

theorem fingerprint_splitOn (claims : NarInfoClaims) :
    claims.fingerprint.splitOn 59 = fingerprintParts claims := by
  rw [fingerprint_eq]
  exact splitOn_intercalate 59 (semicolon_not_mem_parts claims) (cons_ne_nil _ _)

theorem references_eq_of_joined_eq {ps qs : List NixStorePath}
    (h : [44].intercalate (ps.map NixStorePath.asStr) =
      [44].intercalate (qs.map NixStorePath.asStr)) : ps = qs := by
  have ht : ∀ rs : List NixStorePath, ∀ text ∈ rs.map NixStorePath.asStr,
      (44 : UInt8) ∉ text ∧ text ≠ [] := by
    intro rs text he
    obtain ⟨path, -, rfl⟩ := mem_map.1 he
    exact ⟨not_mem_asStr (by decide) (by decide) path, asStr_ne_nil path⟩
  have hm := intercalate_injective (ht ps) (ht qs) h
  exact map_injective_iff.2 NixStorePath.asStr_injective hm

theorem fingerprint_determines {c c' : NarInfoClaims} (h : c.fingerprint = c'.fingerprint) :
    c = c' := by
  have hp : fingerprintParts c = fingerprintParts c' := by
    rw [← fingerprint_splitOn, h, fingerprint_splitOn]
  simp only [fingerprintParts, List.cons.injEq, and_true, true_and] at hp
  obtain ⟨ha, hh, hs, hr⟩ := hp
  refine NarInfoClaims.ext (NixStorePath.asStr_injective ha) (references_eq_of_joined_eq hr) ?_
  have hd := encodeNix32_injective (append_cancel_left hh)
  obtain ⟨⟨digest, size⟩, hc⟩ : ∃ identity, c.identity = identity := ⟨_, rfl⟩
  obtain ⟨⟨digest', size'⟩, hc'⟩ : ∃ identity, c'.identity = identity := ⟨_, rfl⟩
  rw [hc, hc'] at hd hs ⊢
  have hs' := decimal_injective hs
  exact congrArg₂ NarIdentity.mk hd hs'

/-- The fingerprint is injective on claims, so a signature that is valid for one message only is
valid for the claims of one narinfo only. -/
theorem signatures_cannot_be_transplanted (E : Externals Key Signature) (c c' : NarInfoClaims) :
    (c.fingerprint = c'.fingerprint →
      c.storePath = c'.storePath ∧ c.identity.hash = c'.identity.hash ∧
        c.identity.size = c'.identity.size ∧ c.references = c'.references) ∧
    ∀ key signature,
      (E.verifyStrict key c.fingerprint signature = true →
        E.verifyStrict key c'.fingerprint signature = true → c.fingerprint = c'.fingerprint) →
      E.verifyStrict key c.fingerprint signature = true →
      E.verifyStrict key c'.fingerprint signature = true → c = c' := by
  constructor
  · intro h
    rw [fingerprint_determines h]
    exact ⟨rfl, rfl, rfl, rfl⟩
  · intro key signature hu hv hv'
    exact fingerprint_determines (hu hv hv')

def sampleClaims (size : ℕ) : NarInfoClaims :=
  ⟨samplePath, [], ⟨sampleIdentity.hash, size⟩, sorted_nil⟩

theorem sampleSigned_not_transplanted :
    sampleExternals.verifyStrict () (sampleClaims 1).fingerprint sampleSigned = true ∧
      ¬ sampleExternals.verifyStrict () (sampleClaims 2).fingerprint sampleSigned = true := by
  have hv : sampleExternals.verifyStrict () (sampleClaims 1).fingerprint sampleSigned = true := by
    decide +kernel
  refine ⟨hv, fun hv' => ?_⟩
  have heq := (signatures_cannot_be_transplanted sampleExternals (sampleClaims 1)
    (sampleClaims 2)).2 () sampleSigned ?_ hv hv'
  · exact absurd heq (by decide)
  · intro h h'
    simp only [sampleExternals, decide_eq_true_eq] at h h'
    exact h.1.trans h'.1.symm

end NarInfo
