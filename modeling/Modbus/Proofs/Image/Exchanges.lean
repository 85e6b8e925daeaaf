import Modbus.Proofs.Image.Effects
import Modbus.Proofs.Image.Independence
import Modbus.Proofs.Image.Protection

/-!
# Writing and reading with one request

An exchange writes some registers and then reads some, which may be the same ones. It is answered as the two requests
would be, one after the other: a write that is refused leaves nothing to read, and a read that is refused does not take
the write back. What has been written is what is read from then on.
-/

namespace Modbus

/-- The answer to a read as an exchange gives it. -/
def Response.exchanged : Response → Response
  | readHoldingRegisters words => readWriteMultipleRegisters words
  | answer => answer

namespace Bank

variable {α : Type} {b b' : Bank α} {addr : Address} {values : List α}

theorem getEach_of_get {n : Nat} (length : values.length = n)
    (h : ∀ i v, values[i]? = some v → b.get (addr + UInt16.ofNat i) = .ok v) : b.getEach addr n = .ok values := by
  subst length
  induction values generalizing addr with
  | nil => rfl
  | cons v vs ih =>
      have hfirst : b.get addr = .ok v := by
        rw [← addr.add_ofNat_zero]
        exact h 0 v rfl
      have hrest : b.getEach (addr + 1) vs.length = .ok vs := ih fun i w hw => by
        rw [← addr.add_ofNat_succ]
        exact h (i + 1) w hw
      rw [List.length_cons, getEach, hfirst, hrest]
      rfl

theorem Writes.stored {answer response : Response} (h : b.Writes addr values answer (.ok response) b') :
    addr.toNat + values.length ≤ 65536 ∧ b.Stored addr values b' := by
  obtain beyond | room := Nat.lt_or_ge 65536 (addr.toNat + values.length)
  · cases (h.beyond beyond).1
  · obtain ⟨stored, hserved⟩ := h.within room
    split at hserved
    · rename_i hall
      rw [hall, List.take_length] at stored
      exact ⟨room, stored⟩
    · cases hserved

/-- What is read of a range that has been written is what has been written there. -/
theorem Stored.getRange (h : b.Stored addr values b') {start : Address} {qty : Quantity}
    (room : addr.toNat + values.length ≤ 65536) (after : addr.toNat ≤ start.toNat)
    (upto : start.toNat + qty.toNat ≤ addr.toNat + values.length) :
    b'.getRange start qty = .ok ((values.drop (start.toNat - addr.toNat)).take qty.toNat) := by
  have hstart : start = addr + UInt16.ofNat (start.toNat - addr.toNat) := by
    rw [← UInt16.toNat_inj, UInt16.toNat_add, UInt16.toNat_ofNat']
    have hlt := start.toNat_lt
    omega
  have hread : b'.getEach start qty.toNat = .ok ((values.drop (start.toNat - addr.toNat)).take qty.toNat) := by
    refine getEach_of_get ?_ fun i v hi => ?_
    · rw [List.length_take, List.length_drop]
      omega
    · rw [List.getElem?_take, List.getElem?_drop] at hi
      split at hi
      · rw [hstart, UInt16.add_assoc, ← UInt16.ofNat_add, get, h.within hi]
      · cases hi
  unfold Bank.getRange
  split
  · rename_i hqty
    rw [hqty]
    rfl
  · rw [if_neg (by omega), hread]

end Bank

namespace Image

theorem readRange_map {α : Type} (b : Bank α) (most : Nat) (addr : Address) (qty : Quantity)
    (answer : List α → Response) (f : Response → Response) :
    (readRange b most addr qty answer).map f = readRange b most addr qty fun values => f (answer values) := by
  unfold readRange
  split
  · split <;> rfl
  · rfl

theorem handle_readHoldingRegisters (img : Image) (addr : Address) (qty : Quantity) :
    img.handle (.readHoldingRegisters addr qty) =
      (readRange img.holdingRegisters maxReadRegisters addr qty .readHoldingRegisters, img) :=
  img.handle_eq_carryOut (r := .readHoldingRegisters ..) nofun nofun nofun

theorem handle_readWriteMultipleRegisters (img : Image) {addr writeAddr : Address} {qty : Quantity}
    {words : List Word} (admits : Admits maxReadRegisters qty.toNat ∧ Admits maxExchangeWrite words.length) :
    img.handle (.readWriteMultipleRegisters addr qty writeAddr words) =
      ((exchange img.holdingRegisters addr qty writeAddr words).1,
        { img with holdingRegisters := (exchange img.holdingRegisters addr qty writeAddr words).2 }) := by
  rw [img.handle_eq_carryOut (r := .readWriteMultipleRegisters ..) nofun nofun nofun,
    carryOut_readWriteMultipleRegisters img admits]

end Image

namespace ImageService

def writeThenRead (s : ImageService) (addr : Address) (qty : Quantity) (writeAddr : Address) (words : List Word) :
    Served × ImageService :=
  match s.handle (.writeMultipleRegisters writeAddr words) with
  | (.error e, s) => (.error e, s)
  | (.ok _, s) =>
    let (answer, s) := s.handle (.readHoldingRegisters addr qty)
    (answer.map .exchanged, s)

theorem admits_write {n : Nat} (h : Image.Admits Image.maxExchangeWrite n) : Image.Admits Image.maxWriteRegisters n :=
  ⟨h.1, Nat.le_trans h.2 (by decide)⟩

theorem handle_exchange_eq (s : ImageService) {addr writeAddr : Address} {qty : Quantity} {words : List Word}
    (reads : Image.Admits Image.maxReadRegisters qty.toNat)
    (writes : Image.Admits Image.maxExchangeWrite words.length) :
    s.handle (.readWriteMultipleRegisters addr qty writeAddr words) = s.writeThenRead addr qty writeAddr words := by
  unfold writeThenRead
  cases himg : s.image with
  | none => rw [handle_of_none himg, handle_of_none himg]
  | some img =>
      rw [handle_of_image himg, handle_of_image himg, img.handle_readWriteMultipleRegisters ⟨reads, writes⟩,
        img.handle_writeMultipleRegisters writeAddr (admits_write writes)]
      unfold Image.exchange
      obtain ⟨refused, holdingRegisters⟩ := img.holdingRegisters.writeRange writeAddr words
      cases refused with
      | some e => rfl
      | none =>
          dsimp only [Image.written]
          rw [handle_of_image rfl, Image.handle_readHoldingRegisters]
          dsimp only
          rw [Image.readRange_map]
          rfl

/-- A request that only reads leaves the service as it is, so an exchange leaves what its write has left. -/
theorem writeThenRead_left (s : ImageService) (addr : Address) (qty : Quantity) (writeAddr : Address)
    (words : List Word) :
    (s.writeThenRead addr qty writeAddr words).2 = (s.handle (.writeMultipleRegisters writeAddr words)).2 := by
  unfold writeThenRead
  split <;> rename_i hwrite <;> rw [hwrite]
  exact handle_of_isIdle _ trivial

theorem handle_written {s : ImageService} {addr : Address} {words : List Word} {answer : Response}
    (granted : (s.handle (.writeMultipleRegisters addr words)).1 = .ok answer)
    (admits : Image.Admits Image.maxWriteRegisters words.length) {start : Address} {qty : Quantity}
    (some : 0 < qty.toNat) (after : addr.toNat ≤ start.toNat)
    (upto : start.toNat + qty.toNat ≤ addr.toNat + words.length) :
    ((s.handle (.writeMultipleRegisters addr words)).2.handle (.readHoldingRegisters start qty)).1 =
      .ok (.readHoldingRegisters ((words.drop (start.toNat - addr.toNat)).take qty.toNat)) := by
  cases himg : s.image with
  | none =>
      rw [handle_of_none himg] at granted
      cases granted
  | some img =>
      have most : qty.toNat ≤ Image.maxReadRegisters := by
        have := admits.2
        simp only [Image.maxReadRegisters, Image.maxWriteRegisters] at this ⊢
        omega
      rw [handle_of_image himg, img.handle_writeMultipleRegisters addr admits] at granted ⊢
      have hwrites := img.holdingRegisters.writes_writeRange addr words
        (.writeMultipleRegisters addr (UInt16.ofNat words.length))
      rw [show Image.written _ _ = Except.ok answer from granted] at hwrites
      obtain ⟨room, stored⟩ := hwrites.stored
      rw [handle_of_image rfl, Image.handle_readHoldingRegisters, Image.readRange, if_pos ⟨some, most⟩,
        stored.getRange room after upto]

/-- An exchange is a write and, if that is granted, a read of what it has left; in particular what it writes stays
written if it cannot read, and what has been written is what is read. -/
theorem handle_exchanges (s : ImageService) {addr writeAddr : Address} {qty : Quantity} {words : List Word}
    (reads : 1 ≤ qty.toNat ∧ qty.toNat ≤ 125) (writes : 1 ≤ words.length ∧ words.length ≤ 121) :
    let written := s.handle (.writeMultipleRegisters writeAddr words)
    let exchanged := s.handle (.readWriteMultipleRegisters addr qty writeAddr words)
    exchanged = s.writeThenRead addr qty writeAddr words ∧ exchanged.2 = written.2 ∧
      ∀ answer, written.1 = .ok answer → ∀ start n : UInt16, 1 ≤ n.toNat → writeAddr.toNat ≤ start.toNat →
        start.toNat + n.toNat ≤ writeAddr.toNat + words.length →
          (written.2.handle (.readHoldingRegisters start n)).1 =
            .ok (.readHoldingRegisters ((words.drop (start.toNat - writeAddr.toNat)).take n.toNat)) := by
  intro written exchanged
  have heq : exchanged = s.writeThenRead addr qty writeAddr words := s.handle_exchange_eq reads writes
  refine ⟨heq, ?_, fun answer granted start n some after upto => ?_⟩
  · rw [heq, writeThenRead_left]
  · exact handle_written granted (admits_write writes) some after upto

/-- A write of two registers stays, although there is no third to be read. -/
theorem handle_exchanges_gap :
    let bank : Bank Word := ⟨(Std.ExtTreeMap.insert ∅ 0 ⟨7, true⟩).insert 1 ⟨8, true⟩⟩
    let service : ImageService := { image := some { holdingRegisters := bank } }
    let exchanged := service.handle (.readWriteMultipleRegisters 1 2 0 [1, 2])
    exchanged.1 = .error .illegalDataAddress ∧
      exchanged.2 = (service.handle (.writeMultipleRegisters 0 [1, 2])).2 ∧
      (exchanged.2.handle (.readHoldingRegisters 0 2)).1 = .ok (.readHoldingRegisters [1, 2]) := by
  intro bank service exchanged
  obtain ⟨heq, hleft, hread⟩ := @handle_exchanges service 1 0 2 [1, 2] (by decide) (by decide)
  have hrefused : (service.writeThenRead 1 2 0 [1, 2]).1 = .error .illegalDataAddress := by rfl
  refine ⟨(congrArg Prod.fst heq).trans hrefused, hleft, ?_⟩
  rw [show exchanged.2 = _ from hleft]
  exact hread (.writeMultipleRegisters 0 2) rfl 0 2 (by decide) (by decide) (by decide)

end ImageService

end Modbus
