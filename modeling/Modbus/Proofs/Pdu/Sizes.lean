import Modbus.Pdu.Response

/-!
# Sizes of PDUs

What is checked before a PDU is written is its length, and what has been read begins with a function code.
-/

namespace Modbus

theorem FileSpan.length_encode (r : FileSpan) : r.encode.length = Pdu.fileReferenceSize := rfl

theorem FileRecord.length_encode (r : FileRecord) :
    r.encode.length = Pdu.fileReferenceSize + 2 * r.data.length := by
  simp only [FileRecord.encode, List.length_cons, List.length_append, Bytes.length_ofWord, Bytes.length_ofWords,
    Pdu.fileReferenceSize]
  omega

theorem FileRecord.length_encodeAll (rs : List FileRecord) :
    (FileRecord.encodeAll rs).length = 1 + FileRecord.sizeAll rs := by
  simp only [FileRecord.encodeAll, List.length_cons, length_flatMap_eq_total, FileRecord.length_encode,
    FileRecord.sizeAll]
  omega

theorem Response.length_encodeBlock (ws : List Word) : (Response.encodeBlock ws).length = 2 + 2 * ws.length := by
  simp only [Response.encodeBlock, List.length_cons, Bytes.length_ofWords]
  omega

theorem total_const {α : Type} (n : Nat) (xs : List α) : total (fun _ => n) xs = n * xs.length := by
  induction xs with
  | nil => rfl
  | cons x xs ih => simp only [total_cons, ih, List.length_cons, Nat.mul_succ]; omega

theorem le_total {α : Type} (size : α → Nat) {x : α} {xs : List α} (h : x ∈ xs) : size x ≤ total size xs := by
  induction h with
  | head xs => exact Nat.le_add_right _ _
  | tail y _ ih => exact Nat.le_trans ih (Nat.le_add_left _ _)

theorem Request.length_encode (r : Request) : r.encode.length = r.size := by
  cases r with
  | writeFileRecord records =>
      simp only [Request.encode, Request.payload, Request.size, List.length_cons, FileRecord.length_encodeAll]
      omega
  | readFileRecord spans =>
      simp only [Request.encode, Request.payload, Request.size, List.length_cons, length_flatMap_eq_total,
        FileSpan.length_encode, total_const]
      omega
  | _ =>
      simp only [Request.encode, Request.payload, Request.size, List.length_cons, List.length_append,
        Bytes.length_ofWord, Bytes.length_ofWords, Coils.length_pack]
      try omega

theorem Response.length_encode (r : Response) : r.encode.length = r.size := by
  cases r with
  | writeFileRecord records =>
      simp only [Response.encode, Response.payload, Response.size, List.length_cons, FileRecord.length_encodeAll]
      omega
  | readFileRecord blocks =>
      simp only [Response.encode, Response.payload, Response.size, List.length_cons, length_flatMap_eq_total,
        Response.length_encodeBlock, Response.sizeBlocks]
      omega
  | _ =>
      simp only [Response.encode, Response.payload, Response.size, List.length_cons, List.length_append,
        Bytes.length_ofWord, Bytes.length_ofWords, Coils.length_pack]
      try omega

theorem Reply.length_encode (r : Reply) : (Reply.encode r).length = Reply.size r := by
  cases r with
  | ok r => exact r.length_encode
  | error e => rfl

theorem Request.toPdu?_eq_some {r : Request} {pdu : Bytes} :
    r.toPdu? = some pdu ↔ r.size ≤ Pdu.maxSize ∧ r.encode = pdu := by
  unfold Request.toPdu?
  split <;> simp [*]

theorem Reply.toPdu?_eq_some {r : Reply} {pdu : Bytes} :
    r.toPdu? = some pdu ↔ Reply.size r ≤ Pdu.maxSize ∧ Reply.encode r = pdu := by
  unfold Reply.toPdu?
  split <;> simp [*]

theorem Reply.size_pos (r : Reply) : 1 ≤ Reply.size r := by
  rw [← Reply.length_encode]
  cases r with
  | ok r => simp [Reply.encode, Response.encode]
  | error e => simp [Reply.encode, ExceptionResponse.encode]

/-! ## Function codes -/

theorem FunctionCode.eq_custom_of_le {code : UInt8} (h : 0x80 ≤ code) :
    FunctionCode.ofByte code = .custom code := by
  unfold FunctionCode.ofByte
  split <;> first | rfl | exact absurd h (by decide)

theorem Request.head_of_decode {pdu : Bytes} {r : Request} (h : Request.decode pdu = .ok r) :
    ∃ code payload, pdu = code :: payload ∧ code < 0x80 := by
  unfold Request.decode at h
  split at h
  · cases h
  · cases pdu with
    | nil => cases h
    | cons code payload =>
        refine ⟨code, payload, rfl, ?_⟩
        rcases Nat.lt_or_ge code.toNat 0x80 with hlt | hge
        · exact hlt
        · have hle : 0x80 ≤ code := hge
          simp only [FunctionCode.eq_custom_of_le hle, Request.reader, hle, if_true] at h
          cases h

end Modbus
