import Mathlib.Algebra.Group.Nat.Defs
import Mathlib.Data.List.Basic

/-! # Bytes

Messages with a length in front, hexadecimal texts, and texts in UTF-8.
-/

/-! ## Frames

A frame is a flag, the length of a message in four bytes with the highest first, and the
message. A reader that takes the first message of a body needs all of its bytes.
-/

namespace Core.Frame

abbrev Bytes := List UInt8

def lengthBytes (n : Nat) : Bytes :=
  [UInt8.ofNat (n / 2 ^ 24), UInt8.ofNat (n / 2 ^ 16), UInt8.ofNat (n / 2 ^ 8), UInt8.ofNat n]

def frame (flag : UInt8) (message : Bytes) : Bytes :=
  flag :: (lengthBytes message.length ++ message)

def lengthOf (b₃ b₂ b₁ b₀ : UInt8) : Nat :=
  ((b₃.toNat * 256 + b₂.toNat) * 256 + b₁.toNat) * 256 + b₀.toNat

/-- The first message of a body, whatever its flag. -/
def firstMessage : Bytes → Option Bytes
  | _ :: b₃ :: b₂ :: b₁ :: b₀ :: rest =>
      let len := lengthOf b₃ b₂ b₁ b₀
      if len ≤ rest.length then some (rest.take len) else none
  | _ => none

theorem lengthOf_lengthBytes {n : Nat} (h : n < 2 ^ 32) :
    lengthOf (UInt8.ofNat (n / 2 ^ 24)) (UInt8.ofNat (n / 2 ^ 16)) (UInt8.ofNat (n / 2 ^ 8))
      (UInt8.ofNat n) = n := by
  unfold lengthOf
  simp only [UInt8.toNat_ofNat']
  omega

theorem firstMessage_frame {message : Bytes} (h : message.length < 2 ^ 32) (flag : UInt8)
    (rest : Bytes) : firstMessage (frame flag message ++ rest) = some message := by
  have hlength : message.length ≤ (message ++ rest).length := by simp
  simp only [frame, lengthBytes, firstMessage, List.cons_append, List.nil_append,
    lengthOf_lengthBytes h, if_pos hlength, List.take_left]

end Core.Frame

namespace Core.Hex

def encodeByte (byte : UInt8) : List Char :=
  [Nat.digitChar (byte.toNat / 16), Nat.digitChar (byte.toNat % 16)]

def encode (bytes : List UInt8) : List Char := bytes.flatMap encodeByte

theorem digitChar_inj {m n : Nat} (hm : m < 16) (hn : n < 16)
    (h : Nat.digitChar m = Nat.digitChar n) : m = n := by
  have hall : ∀ m < 16, ∀ n < 16, Nat.digitChar m = Nat.digitChar n → m = n := by
    decide +kernel
  exact hall m hm n hn h

theorem encodeByte_injective : Function.Injective encodeByte := by
  intro a b h
  simp only [encodeByte, List.cons.injEq, and_true] at h
  have ha := a.toNat_lt
  have hb := b.toNat_lt
  have hhigh := digitChar_inj (by omega) (by omega) h.1
  have hlow := digitChar_inj (by omega) (by omega) h.2
  apply UInt8.toNat_inj.mp
  omega

theorem encode_injective : Function.Injective encode := by
  intro as bs h
  induction as generalizing bs with
  | nil =>
      cases bs with
      | nil => rfl
      | cons b bs => simp [encode, encodeByte] at h
  | cons a as ih =>
      cases bs with
      | nil => simp [encode, encodeByte] at h
      | cons b bs =>
          have hparts : encodeByte a = encodeByte b ∧ encode as = encode bs :=
            List.append_inj h rfl
          rw [encodeByte_injective hparts.1, ih hparts.2]

end Core.Hex

namespace Core.Utf8

def decode (bytes : List UInt8) : Option String := String.fromUTF8? bytes.toByteArray

theorem toList_loop (bytes : ByteArray) (i : Nat) (acc : List UInt8) :
    ByteArray.toList.loop bytes i acc = acc.reverse ++ bytes.data.toList.drop i := by
  induction i, acc using ByteArray.toList.loop.induct bytes with
  | case1 i acc h ih =>
      have hi : i < bytes.data.toList.length := by simpa using h
      have hget : bytes.data[i]! = bytes.data[i] := getElem!_pos bytes.data i hi
      rw [ByteArray.toList.loop, if_pos h, ih, List.drop_eq_getElem_cons hi]
      simp [ByteArray.get!, hget]
  | case2 i acc h =>
      have hend : bytes.data.toList.length ≤ i := by simpa using h
      rw [ByteArray.toList.loop, if_neg h, List.drop_eq_nil_of_le hend, List.append_nil]

theorem toList_eq (bytes : ByteArray) : bytes.toList = bytes.data.toList :=
  toList_loop bytes 0 []

theorem decode_toUTF8 (text : String) : decode text.toUTF8.toList = some text := by
  have hbytes : text.toUTF8.toList.toByteArray = text.toUTF8 := by
    apply ByteArray.ext
    rw [toList_eq, List.data_toByteArray, Array.toArray_toList]
  unfold decode String.fromUTF8?
  rw [hbytes, String.toUTF8_eq_toByteArray, dif_pos text.isValidUTF8]
  rfl

theorem decode_eq_some {bytes : List UInt8} {text : String} :
    decode bytes = some text ↔ text.toUTF8.toList = bytes := by
  constructor
  · intro h
    unfold decode String.fromUTF8? at h
    split at h
    · cases h
      rw [toList_eq]
      change bytes.toByteArray.data.toList = bytes
      rw [List.data_toByteArray]
    · cases h
  · rintro rfl
    exact decode_toUTF8 text

end Core.Utf8
