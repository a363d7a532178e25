import FieldWire.Codec
import FieldWire.Proofs.Digest
import FieldWire.Proofs.RoundTrip

/-! # Codecs

A codec parses, writes and checks under one pair of limits and with one hash algorithm. What it writes is never too long
for its own parser, but it may be too deep, and only then it cannot be read back (`reads_back_iff_depth_le`). A message
passes the check against a digest exactly if it can be parsed and has that digest, in whatever order the fields stood in
the message that the digest was taken of and whatever the hash function is (`verify_answers`). -/

namespace FieldWire.Codec
variable {codec : Codec} {m : Message} {bytes : Bytes} {expected : Digest} {hash : Bytes → Digest}

/-! ### Answers without their logs -/

theorem parse_fst (codec : Codec) (bytes : Bytes) :
    (codec.parse bytes).1 = (Message.decode codec.limits bytes).mapError .core := by
  rw [parse, Message.decode]
  rcases Message.decodeLogged codec.limits bytes with ⟨_ | _, log⟩ <;> rfl

theorem encode_eq_ok_iff :
    (codec.encode m).1 = .ok bytes ↔ m.encode = .ok bytes ∧ bytes.length ≤ codec.limits.maxLength.toNat := by
  rw [encode]
  cases m.encode with
  | error e => simp
  | ok written =>
    simp only [Except.ok.injEq]
    split
    · next hlong => exact ⟨nofun, fun ⟨heq, hle⟩ => absurd (heq ▸ hle) (Nat.not_le.mpr hlong)⟩
    · next hle => exact ⟨fun h => ⟨Except.ok.inj h, Except.ok.inj h ▸ Nat.not_lt.mp hle⟩, fun h => congrArg _ h.1⟩

theorem encode_fst_of_encode_eq_ok (h : m.encode = .ok bytes) :
    (codec.encode m).1 =
      if codec.limits.maxLength.toNat < bytes.length then
        .error (.core (.oversizeMessage bytes.length codec.limits.maxLength))
      else .ok bytes := by
  rw [encode, h]
  dsimp only
  split <;> rfl

theorem commit_fst (codec : Codec) (bytes : Bytes) :
    (codec.commit bytes).1 = (codec.parse bytes).1.map fun m => (m, m.digest codec.algorithm) := by
  rw [commit]
  rcases codec.parse bytes with ⟨_ | _, log⟩ <;> rfl

/-- The answer of a check that hashes with the given function. -/
def checkWith (codec : Codec) (hash : Bytes → Digest) (bytes : Bytes) (expected : Digest) : Except CodecError Message :=
  (codec.parse bytes).1.bind fun m =>
    if m.digestWith hash = expected then .ok m else .error (.digestMismatch expected (m.digestWith hash))

/-- A codec checks with the hash function of its algorithm. -/
theorem verify_fst (codec : Codec) (bytes : Bytes) (expected : Digest) :
    (codec.verify bytes expected).1 = codec.checkWith codec.algorithm.hash bytes expected := by
  rw [verify, commit, checkWith]
  rcases codec.parse bytes with ⟨_ | m, log⟩
  · rfl
  · by_cases hdigest : m.digestWith codec.algorithm.hash = expected <;>
      simp [Except.bind, digestMessage, Message.digest, hdigest]

theorem parse_eq_ok_iff : (codec.parse bytes).1 = .ok m ↔ Message.decode codec.limits bytes = .ok m := by
  rw [parse_fst]
  cases Message.decode codec.limits bytes <;> simp [Except.mapError]

theorem checkWith_eq_ok_iff :
    codec.checkWith hash bytes expected = .ok m ↔ (codec.parse bytes).1 = .ok m ∧ m.digestWith hash = expected := by
  rw [checkWith]
  cases (codec.parse bytes).1 with
  | error e => simp [Except.bind]
  | ok n =>
    simp only [Except.bind, Except.ok.injEq]
    split
    · next heq => exact ⟨fun h => ⟨Except.ok.inj h, Except.ok.inj h ▸ heq⟩, fun h => congrArg _ h.1⟩
    · next hne => exact ⟨nofun, fun ⟨heq, hdigest⟩ => absurd (heq ▸ hdigest) hne⟩

theorem verify_eq_ok_iff : (codec.verify bytes expected).1 = .ok m ↔
    (codec.parse bytes).1 = .ok m ∧ m.digest codec.algorithm = expected := by
  rw [verify_fst]
  exact checkWith_eq_ok_iff

theorem verify_eq_digestMismatch (h : (codec.parse bytes).1 = .ok m) (hne : m.digest codec.algorithm ≠ expected) :
    (codec.verify bytes expected).1 = .error (.digestMismatch expected (m.digest codec.algorithm)) := by
  rw [verify_fst, checkWith, h]
  exact if_neg hne

/-! ### Reading back -/

theorem parse_of_encode_eq_ok (hm : m.Built) (h : (codec.encode m).1 = .ok bytes) :
    (codec.parse bytes).1 =
      if codec.limits.maxDepth.toNat < m.depth then .error (.core (.depthExceeded codec.limits.maxDepth))
      else .ok m := by
  obtain ⟨fs, hfs, rfl⟩ := hm.exists_forest
  obtain ⟨henc, hlen⟩ := encode_eq_ok_iff.mp h
  cases (Forest.encode_message hfs.fits).symm.trans henc
  rw [parse_fst, Message.decode_wireForm hfs, if_neg (Nat.not_lt.mpr hlen), fs.depth_message]
  split <;> rfl

/-- What a codec writes for a message that is built by inserting, it reads back exactly if the message has no more
    levels than it admits. A deeper message is written all the same, and refused when it is read. -/
theorem reads_back_iff_depth_le (hm : m.Built) (h : (codec.encode m).1 = .ok bytes) :
    ((∃ m', (codec.parse bytes).1 = .ok m' ∧ m'.agrees m = true ∧ (codec.encode m').1 = .ok bytes) ↔
        m.depth ≤ codec.limits.maxDepth.toNat) ∧
      (codec.limits.maxDepth.toNat < m.depth →
        (codec.parse bytes).1 = .error (.core (.depthExceeded codec.limits.maxDepth))) := by
  have hparse := parse_of_encode_eq_ok hm h
  refine ⟨⟨?_, fun hdepth => ?_⟩, fun hdepth => hparse.trans (if_pos hdepth)⟩
  · rintro ⟨m', hm', -, -⟩
    by_contra hdepth
    rw [hparse, if_pos (Nat.lt_of_not_le hdepth)] at hm'
    cases hm'
  · exact ⟨m, hparse.trans (if_neg (Nat.not_lt.mpr hdepth)), hm.agrees_self, h⟩

/-- A message of two levels, under limits that it just fits into and under a limit of one level. -/
theorem reads_back_two_levels :
    (∃ m', ((⟨⟨2, 2⟩, .sha256⟩ : Codec).parse [0x15, 0x01]).1 = .ok m' ∧
        m'.agrees (Forest.message [(1, .nested [])]) = true ∧
        ((⟨⟨2, 2⟩, .sha256⟩ : Codec).encode m').1 = .ok [0x15, 0x01]) ∧
      ((⟨⟨2, 1⟩, .sha256⟩ : Codec).parse [0x15, 0x01]).1 = .error (.core (.depthExceeded 1)) := by
  have hm : (Forest.message [(1, .nested [])]).Built := Message.built_iff.mpr ⟨_, by decide, rfl⟩
  have h : ((⟨⟨2, 2⟩, .sha256⟩ : Codec).encode (Forest.message [(1, .nested [])])).1 = .ok [0x15, 0x01] := by cbv
  have h' : ((⟨⟨2, 1⟩, .sha256⟩ : Codec).encode (Forest.message [(1, .nested [])])).1 = .ok [0x15, 0x01] := by cbv
  exact ⟨(reads_back_iff_depth_le hm h).1.mpr (by decide), (reads_back_iff_depth_le hm h').2 (by decide)⟩

/-- A codec may write what it cannot read back: only the length is looked at before the bytes are given out. -/
theorem not_always_reads_back :
    ¬ ∀ (codec : Codec) (m : Message) (bytes : Bytes), m.Built → (codec.encode m).1 = .ok bytes →
      ∃ m', (codec.parse bytes).1 = .ok m' ∧ m'.agrees m = true ∧ (codec.encode m').1 = .ok bytes := by
  intro hall
  have hm : (Forest.message [(1, .nested [])]).Built := Message.built_iff.mpr ⟨_, by decide, rfl⟩
  obtain ⟨m', hparse, -, -⟩ := hall ⟨⟨1024, 1⟩, .sha256⟩ _ [0x15, 0x01] hm (by cbv)
  have hrefused : ((⟨⟨1024, 1⟩, .sha256⟩ : Codec).parse [0x15, 0x01]).1 = .error (.core (.depthExceeded 1)) := by cbv
  cases hparse.symm.trans hrefused

/-! ### Checking a digest -/

theorem checkWith_of_encode_eq_ok {n : Message} (hm : m.Built) (hn : n.Built) (hag : m.agrees n = true)
    (h : (codec.encode m).1 = .ok bytes) (hdepth : m.depth ≤ codec.limits.maxDepth.toNat) (expected : Digest) :
    codec.checkWith hash bytes expected =
      if n.digestWith hash = expected then .ok m else .error (.digestMismatch expected (n.digestWith hash)) := by
  rw [checkWith, parse_of_encode_eq_ok hm h, if_neg (Nat.not_lt.mpr hdepth), Except.bind, hm.digestWith_eq hn hag]

/-- A codec checks with the hash function of its algorithm, and its checks answer in the same way with any other function
    in its place. A message that is written within the limits of the codec passes its check against the digest of every
    message that it agrees with, and against another digest the check fails and names both. Of bytes from elsewhere,
    only what is written for a message with the expected digest passes. What cannot be parsed fails for the reason that
    the parser gives. -/
theorem verify_answers (codec : Codec) :
    (∀ bytes expected, (codec.verify bytes expected).1 = codec.checkWith codec.algorithm.hash bytes expected) ∧
      (∀ hash : Bytes → Digest,
        (∀ m n : Message, m.Built → n.Built → m.agrees n = true →
          ∃ bytes, m.encode = .ok bytes ∧
            (bytes.length ≤ codec.limits.maxLength.toNat → m.depth ≤ codec.limits.maxDepth.toNat →
              (∃ m', codec.checkWith hash bytes (n.digestWith hash) = .ok m' ∧ m'.agrees n = true ∧
                m'.encode = .ok bytes) ∧
              ∀ expected, expected ≠ n.digestWith hash →
                codec.checkWith hash bytes expected = .error (.digestMismatch expected (n.digestWith hash)))) ∧
        ∀ bytes expected m, codec.checkWith hash bytes expected = .ok m →
          m.encode = .ok bytes ∧ m.digestWith hash = expected) ∧
      ∀ bytes e, (codec.parse bytes).1 = .error e →
        (∀ expected, (codec.verify bytes expected).1 = .error e) ∧ (codec.commit bytes).1 = .error e := by
  refine ⟨verify_fst codec, fun hash => ⟨fun m n hm hn hag => ?_, fun bytes expected m h => ?_⟩, fun bytes e h =>
    ⟨fun expected => ?_, ?_⟩⟩
  · obtain ⟨fs, hfs, rfl⟩ := hm.exists_forest
    have henc := Forest.encode_message hfs.fits
    refine ⟨fs.wireForm, henc, fun hlen hdepth => ?_⟩
    have hcheck : ∀ expected, codec.checkWith hash fs.wireForm expected = _ :=
      checkWith_of_encode_eq_ok hm hn hag (encode_eq_ok_iff.mpr ⟨henc, hlen⟩) hdepth
    exact ⟨⟨fs.message, (hcheck _).trans (if_pos rfl), hag, henc⟩,
      fun expected hne => (hcheck expected).trans (if_neg hne.symm)⟩
  · obtain ⟨hparse, hdigest⟩ := checkWith_eq_ok_iff.mp h
    obtain ⟨fs, hfs, rfl, rfl, -, -⟩ := Message.exists_of_decode_eq_ok (parse_eq_ok_iff.mp hparse)
    exact ⟨Forest.encode_message hfs.fits, hdigest⟩
  · rw [verify_fst, checkWith, h]
    rfl
  · rw [commit_fst, h]
    rfl

/-- The digest is that of a message with the fields in another order at both levels. Against zeros the check fails, and
    so does any check of a header with nothing after it. -/
theorem verify_reordered :
    (∃ m', ((⟨⟨8, 2⟩, .sha256⟩ : Codec).verify [0x95, 0x09, 0x41, 0x01, 0x21, 0x03, 0x17, 0x01]
          ((Forest.message [(1, .binary []), (9, .nested [(2, .uint64 1), (4, .uint64 0)])]).digest .sha256)).1 = .ok m' ∧
        m'.agrees (Forest.message [(1, .binary []), (9, .nested [(2, .uint64 1), (4, .uint64 0)])]) = true ∧
        m'.encode = .ok [0x95, 0x09, 0x41, 0x01, 0x21, 0x03, 0x17, 0x01]) ∧
      ((⟨⟨8, 2⟩, .sha256⟩ : Codec).verify [0x95, 0x09, 0x41, 0x01, 0x21, 0x03, 0x17, 0x01] ⟨.replicate 32 0⟩).1 =
        .error (.digestMismatch ⟨.replicate 32 0⟩
          ((Forest.message [(1, .binary []), (9, .nested [(2, .uint64 1), (4, .uint64 0)])]).digest .sha256)) ∧
      ((⟨⟨8, 2⟩, .sha256⟩ : Codec).verify [0x15] ⟨.replicate 32 0⟩).1 = .error (.core .varintMissing) := by
  obtain ⟨hverify, hanswers, hrefused⟩ := verify_answers ⟨⟨8, 2⟩, .sha256⟩
  obtain ⟨bytes, henc, hcheck⟩ := (hanswers HashAlgorithm.sha256.hash).1
    (Forest.message [(9, .nested [(4, .uint64 0), (2, .uint64 1)]), (1, .binary [])])
    (Forest.message [(1, .binary []), (9, .nested [(2, .uint64 1), (4, .uint64 0)])])
    (Message.built_iff.mpr ⟨_, by decide, rfl⟩) (Message.built_iff.mpr ⟨_, by decide, rfl⟩) (by decide)
  have hbytes : (Forest.message [(9, .nested [(4, .uint64 0), (2, .uint64 1)]), (1, .binary [])]).encode =
      .ok [0x95, 0x09, 0x41, 0x01, 0x21, 0x03, 0x17, 0x01] := by cbv
  cases henc.symm.trans hbytes
  obtain ⟨⟨m', hm', hagrees, henc'⟩, hmismatch⟩ := hcheck (by decide) (by decide)
  exact ⟨⟨m', (hverify _ _).trans hm', hagrees, henc'⟩,
    (hverify _ _).trans (hmismatch ⟨.replicate 32 0⟩ (by decide +kernel)), (hrefused [0x15] _ (by cbv)).1 _⟩

end FieldWire.Codec
