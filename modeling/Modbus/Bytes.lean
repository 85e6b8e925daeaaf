/-!
# Bytes and words

Everything on the wire is a list of bytes. A word is sixteen bits wide and travels with its high byte
first. `word_high_low`, `high_word` and `low_word` say that splitting and joining are inverse.
-/

namespace Modbus

abbrev Bytes := List UInt8

abbrev Word := UInt16

/-- Zero based address of an entity. -/
abbrev Address := UInt16

abbrev Quantity := UInt16

def high (w : Word) : UInt8 := UInt8.ofNat (w.toNat / 256)

def low (w : Word) : UInt8 := UInt8.ofNat (w.toNat % 256)

def word (hi lo : UInt8) : Word := UInt16.ofNat (256 * hi.toNat + lo.toNat)

theorem toNat_word (hi lo : UInt8) : (word hi lo).toNat = 256 * hi.toNat + lo.toNat := by
  have h := hi.toNat_lt
  have l := lo.toNat_lt
  simp only [word, UInt16.toNat_ofNat']
  omega

theorem toNat_high (w : Word) : (high w).toNat = w.toNat / 256 := by
  have h := w.toNat_lt
  simp only [high, UInt8.toNat_ofNat']
  omega

theorem toNat_low (w : Word) : (low w).toNat = w.toNat % 256 := by
  simp only [low, UInt8.toNat_ofNat']
  omega

@[simp] theorem word_high_low (w : Word) : word (high w) (low w) = w := by
  apply UInt16.toNat_inj.mp
  rw [toNat_word, toNat_high, toNat_low]
  omega

@[simp] theorem high_word (hi lo : UInt8) : high (word hi lo) = hi := by
  have l := lo.toNat_lt
  apply UInt8.toNat_inj.mp
  rw [toNat_high, toNat_word]
  omega

@[simp] theorem low_word (hi lo : UInt8) : low (word hi lo) = lo := by
  have l := lo.toNat_lt
  apply UInt8.toNat_inj.mp
  rw [toNat_low, toNat_word]
  omega

def Bytes.ofWord (w : Word) : Bytes := [high w, low w]

def Bytes.ofWords (ws : List Word) : Bytes := ws.flatMap Bytes.ofWord

@[simp] theorem Bytes.length_ofWord (w : Word) : (Bytes.ofWord w).length = 2 := rfl

@[simp] theorem Bytes.ofWords_nil : Bytes.ofWords [] = [] := rfl

@[simp] theorem Bytes.ofWords_cons (w : Word) (ws : List Word) :
    Bytes.ofWords (w :: ws) = high w :: low w :: Bytes.ofWords ws := rfl

@[simp] theorem Bytes.length_ofWords (ws : List Word) : (Bytes.ofWords ws).length = 2 * ws.length := by
  induction ws with
  | nil => rfl
  | cons w ws ih => simp [ih]; omega

end Modbus
