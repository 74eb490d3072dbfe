import HDCS.Core.Message

/-!
# Messages come out of a stream as they went in

The header is read back from its image, so the receiver takes as many bytes as the
sender wrote; they end in the check bytes because the header was made from them. One
message read back in front of any rest is what the stream rule asks for.
-/

namespace HDCS.Proof

open Lib List

/-! ## The header -/

theorem length_image (h : MsgHeader) : h.image.length = MsgHeader.sizeOf := by
  unfold MsgHeader.image MsgHeader.sizeOf
  rw [length_append, length_append, Wire.length_encode, Wire.length_encode, h.crcFlag_length]
  omega

theorem ofImage_image (h : MsgHeader) : MsgHeader.ofImage h.image (length_image h) = h := by
  have hseq : h.image.take 8 = Wire.encode 8 h.seqId.toNat :=
    take_left' (Wire.length_encode 8 _)
  have hrest : h.image.drop 8 = Wire.encode 8 h.size.toNat ++ h.crcFlag :=
    drop_left' (Wire.length_encode 8 _)
  have hsize : (h.image.drop 8).take 8 = Wire.encode 8 h.size.toNat := by
    rw [hrest]
    exact take_left' (Wire.length_encode 8 _)
  have hcrc : h.image.drop 16 = h.crcFlag := by
    rw [show 16 = 8 + 8 from rfl, ← drop_drop, hrest]
    exact drop_left' (Wire.length_encode 8 _)
  unfold MsgHeader.ofImage
  simp only [hseq, hsize, hcrc, Wire.decode_encode_uint64]

/-! ## One message -/

theorem checkCrc_eq_true_iff {h : MsgHeader} {content : List UInt8} :
    checkCrc h content = some true ↔
      crcByteNum ≤ content.length ∧ h.crcFlag = checkBytes content := by
  unfold checkCrc
  by_cases hlen : crcByteNum ≤ content.length
  · rw [if_pos hlen, Option.some_inj, all_eq_true]
    have hget : ∀ i, (checkBytes content)[i]? = content[content.length - crcByteNum + i]? :=
      fun i => getElem?_drop ..
    constructor
    · intro hall
      refine ⟨hlen, ext_getElem? fun i => ?_⟩
      by_cases hi : i < crcByteNum
      · rw [hget]
        exact beq_iff_eq.mp (hall i (mem_range.mpr hi))
      · -- both are eight bytes long
        rw [getElem?_eq_none (by rw [h.crcFlag_length]; omega),
          getElem?_eq_none (by rw [length_checkBytes hlen]; omega)]
    · rintro ⟨-, heq⟩ i -
      rw [heq, hget]
      exact beq_self_eq_true _
  · rw [if_neg hlen]
    simp [hlen]

theorem new_spec {data : Content} (seqId : UInt64) (hlen : crcByteNum ≤ data.bytes.length) :
    ∃ m, Message.new data seqId = some m ∧ m.data = data ∧ m.header.seqId = seqId
      ∧ m.header.size.toNat = data.bytes.length ∧ m.header.crcFlag = checkBytes data.bytes :=
  ⟨_, dif_pos hlen, rfl, rfl, UInt64.toNat_ofNat_of_lt' data.size_lt, rfl⟩

/-- **A message in front of any rest is received, and the rest is left.** -/
theorem receive_toBuffer {m : Message} (hlen : crcByteNum ≤ m.data.bytes.length)
    (hsize : m.header.size.toNat = m.data.bytes.length)
    (hcrc : m.header.crcFlag = checkBytes m.data.bytes) (rest : List UInt8) :
    receive (m.toBuffer ++ rest) = .received m.header.seqId m.data rest := by
  have himage := length_image m.header
  have htake : (m.toBuffer ++ rest).take MsgHeader.sizeOf = m.header.image := by
    rw [Message.toBuffer, append_assoc]
    exact take_left' himage
  have hdrop : (m.toBuffer ++ rest).drop MsgHeader.sizeOf = m.data.bytes ++ rest := by
    rw [Message.toBuffer, append_assoc]
    exact drop_left' himage
  have hlong : MsgHeader.sizeOf ≤ (m.toBuffer ++ rest).length := by
    rw [Message.toBuffer, length_append, length_append, himage]
    omega
  have hcontent : readContent m.header.size (m.data.bytes ++ rest) = m.data := by
    unfold readContent
    congr
    rw [hsize]
    exact take_left
  have hheader : MsgHeader.ofImage ((m.toBuffer ++ rest).take MsgHeader.sizeOf)
      (length_take_of_le hlong) = m.header := by
    simp only [htake, ofImage_image]
  unfold receive
  rw [dif_pos hlong]
  simp only [hheader, hdrop, hcontent]
  rw [if_neg (by omega), if_pos (checkCrc_eq_true_iff.mpr ⟨hlen, hcrc⟩), hsize, drop_left]

/-! ## The stream -/

def frame (m : UInt64 × Content) : List UInt8 :=
  match Message.new m.2 m.1 with
  | some x => x.toBuffer
  | none => []

theorem sendAll_eq : ∀ {ms : List (UInt64 × Content)},
    (∀ m ∈ ms, crcByteNum ≤ m.2.bytes.length) → sendAll ms = some (ms.flatMap frame)
  | [], _ => rfl
  | m :: ms, h => by
    have ih : sendAll ms = some (ms.flatMap frame) :=
      sendAll_eq fun m' hm' => h m' (mem_cons_of_mem _ hm')
    obtain ⟨x, hnew, -⟩ := new_spec m.1 (h m mem_cons_self)
    rw [sendAll, ih, flatMap_cons, frame, hnew]

theorem reads_frame {m : UInt64 × Content} (h : crcByteNum ≤ m.2.bytes.length) :
    Wire.Reads frame nextMessage m := by
  obtain ⟨x, hnew, hdata, hseq, hsize, hcrc⟩ := new_spec m.1 h
  have hframe : frame m = x.toBuffer := by
    rw [frame, hnew]
  rw [← hdata] at h hsize hcrc
  rw [Wire.Reads, hframe]
  refine ⟨?_, fun rest => ?_⟩
  · intro hnil
    have hlen := congrArg List.length hnil
    rw [Message.toBuffer, length_append, length_image] at hlen
    exact absurd hlen (by simp [MsgHeader.sizeOf])
  · rw [nextMessage, receive_toBuffer h hsize hcrc, hseq, hdata]

/--
**Messages of any sizes, written one after the other, are received one after the
other**: the same ids and contents, no assertion, and nothing is left over.
-/
theorem messages_round_trip (ms : List (UInt64 × Content))
    (h : ∀ m ∈ ms, crcByteNum ≤ m.2.bytes.length) :
    ∃ stream, sendAll ms = some stream ∧ aioReceive stream = ⟨ms, [], false⟩ := by
  refine ⟨ms.flatMap frame, sendAll_eq h, ?_⟩
  have hread : Wire.readAll nextMessage (ms.flatMap frame).length (ms.flatMap frame) = (ms, []) :=
    Wire.readAll_flatMap rfl (fun m hm => reads_frame (h m hm)) (Nat.le_refl _)
  rw [aioReceive, hread]
  rfl

/-- Two messages, one of them with zeros and with bytes that look like a header. -/
theorem two_messages_round_trip : ∃ stream,
    sendAll [(7, ⟨[0, 0, 0, 0, 0, 0, 0, 0, 9], by decide⟩),
      (18446744073709551615, ⟨[1, 2, 3, 4, 5, 6, 7, 255], by decide⟩)] = some stream
    ∧ (aioReceive stream).left = [] ∧ (aioReceive stream).failed = false := by
  obtain ⟨stream, hs, hr⟩ := messages_round_trip
    [(7, ⟨[0, 0, 0, 0, 0, 0, 0, 0, 9], by decide⟩),
      (18446744073709551615, ⟨[1, 2, 3, 4, 5, 6, 7, 255], by decide⟩)] (by decide)
  exact ⟨stream, hs, by rw [hr], by rw [hr]⟩

end HDCS.Proof
