import Modbus.Proofs.Image.Outcomes
import Modbus.Proofs.Pdu.Responses
import Modbus.Server.Basic

/-!
# Answers of a process image

The images that a device can get to, by what the device does itself and by the requests that it carries out, hold no
queue that is too long for an answer. So every answer of such an image has a PDU of its own and is of the function
that was asked for.
-/

namespace Modbus

/-! ## Images that can be reached -/

/-- What a device can do to a bank of its image. -/
inductive Bank.Edit {α : Type} (b : Bank α) : Bank α → Prop
  | add {addr : Address} {value : α} {writable : Bool} {b'} (h : b.add addr value writable = .ok b') : Edit b b'
  | set {addr : Address} {value : α} {b'} (h : b.set addr value = .ok b') : Edit b b'
  | setWritable {addr : Address} {writable : Bool} {b'} (h : b.setWritable addr writable = .ok b') : Edit b b'
  | remove (addr : Address) : Edit b (b.remove addr)
  | write {addr : Address} {value : α} {b'} (h : b.write addr value = .ok b') : Edit b b'

inductive Files.Edit (fs : Files) : Files → Prop
  | add {file length : UInt16} {fs'} (h : fs.add file length = .ok fs') : Edit fs fs'
  | remove (file : UInt16) : Edit fs (fs.remove file)
  | write {file record : UInt16} {data : List Word} {fs'} (h : fs.write file record data = .ok fs') : Edit fs fs'

inductive Fifos.Edit (fs : Fifos) : Fifos → Prop
  | add {addr : Address} {fs'} (h : fs.add addr = .ok fs') : Edit fs fs'
  | remove (addr : Address) : Edit fs (fs.remove addr)
  | push {addr : Address} {value : Word} {fs'} (h : fs.push addr value = .ok fs') : Edit fs fs'
  | clear {addr : Address} {fs'} (h : fs.clear addr = .ok fs') : Edit fs fs'

/-- The images that a device can get to from an empty one. -/
inductive Image.Reachable : Image → Prop
  | empty : Reachable {}
  | coils {img : Image} {b} (h : Reachable img) (edit : img.coils.Edit b) : Reachable { img with coils := b }
  | discreteInputs {img : Image} {b} (h : Reachable img) (edit : img.discreteInputs.Edit b) :
      Reachable { img with discreteInputs := b }
  | inputRegisters {img : Image} {b} (h : Reachable img) (edit : img.inputRegisters.Edit b) :
      Reachable { img with inputRegisters := b }
  | holdingRegisters {img : Image} {b} (h : Reachable img) (edit : img.holdingRegisters.Edit b) :
      Reachable { img with holdingRegisters := b }
  | files {img : Image} {fs} (h : Reachable img) (edit : img.files.Edit fs) : Reachable { img with files := fs }
  | fifos {img : Image} {fs} (h : Reachable img) (edit : img.fifos.Edit fs) : Reachable { img with fifos := fs }
  | handle {img : Image} (h : Reachable img) (r : Request) : Reachable (img.handle r).2

namespace Fifos

def Bounded (fs : Fifos) : Prop :=
  ∀ (addr : Address) (queue : List Word), fs.queues[addr]? = some queue → queue.length ≤ maxFifoCount

theorem bounded_empty : Bounded {} := by
  intro addr queue h
  simp at h

theorem Bounded.insert {fs : Fifos} (h : fs.Bounded) (addr : Address) {queue : List Word}
    (hq : queue.length ≤ maxFifoCount) : Bounded ⟨fs.queues.insert addr queue⟩ := by
  intro a q hget
  rw [Std.ExtTreeMap.getElem?_insert] at hget
  split at hget
  · cases hget
    exact hq
  · exact h a q hget

theorem Bounded.remove {fs : Fifos} (h : fs.Bounded) (addr : Address) : (fs.remove addr).Bounded := by
  intro a q hget
  unfold Fifos.remove at hget
  rw [Std.ExtTreeMap.getElem?_erase] at hget
  split at hget
  · cases hget
  · exact h a q hget

theorem Bounded.read {fs : Fifos} (h : fs.Bounded) {addr : Address} {queue : List Word}
    (hr : fs.read addr = .ok queue) : queue.length ≤ maxFifoCount := by
  unfold Fifos.read at hr
  split at hr
  · rename_i hget
    cases hr
    exact h _ _ hget
  · cases hr

theorem Bounded.edit {fs fs' : Fifos} (h : fs.Bounded) (edit : fs.Edit fs') : fs'.Bounded := by
  cases edit with
  | add hadd =>
      unfold Fifos.add at hadd
      split at hadd
      · cases hadd
      · cases hadd
        exact h.insert _ (Nat.zero_le _)
  | remove addr => exact h.remove addr
  | @push addr value _ hpush =>
      unfold Fifos.push at hpush
      cases hr : fs.read addr with
      | error e => rw [hr] at hpush; cases hpush
      | ok queue =>
          rw [hr] at hpush
          simp only [bind, Except.bind] at hpush
          split at hpush
          · cases hpush
          · cases hpush
            refine h.insert _ ?_
            simp only [List.length_append, List.length_singleton]
            omega
  | @clear addr _ hclear =>
      unfold Fifos.clear at hclear
      cases hr : fs.read addr with
      | error e => rw [hr] at hclear; cases hclear
      | ok queue =>
          rw [hr] at hclear
          cases hclear
          exact h.insert _ (Nat.zero_le _)

end Fifos

theorem Request.AnsweredBy.isRegular {r : Request} {answer : Response} (h : r.AnsweredBy answer)
    (blocks : answer ≠ .writeFileRecord []) (queue : ∀ ws, answer = .readFifoQueue ws → ws.length ≤ maxFifoCount) :
    answer.IsRegular := by
  cases h with
  | writeFileRecord => exact fun hrecords => blocks (congrArg _ hrecords)
  | readFifoQueue => exact queue _ rfl
  | _ => trivial

namespace Image

theorem Reachable.bounded {img : Image} (h : img.Reachable) : img.fifos.Bounded := by
  induction h with
  | empty => exact Fifos.bounded_empty
  | coils _ _ ih | discreteInputs _ _ ih | inputRegisters _ _ ih | holdingRegisters _ _ ih | files _ _ ih => exact ih
  | fifos _ edit ih => exact ih.edit edit
  | @handle img _ r ih => rwa [(img.keeps_handle r).fifos]

/-! ## What is answered -/

/-- The answer is of the function that was asked for and stands for itself on the wire. -/
def Suits (function : FunctionCode) : Served → Prop
  | .ok answer => answer.function = function ∧ answer.IsRegular
  | .error e => e.IsCanonical

theorem queue_of_carryOut {img : Image} (bounded : img.fifos.Bounded) {r : Request} {ws : List Word}
    (h : (img.carryOut r).1 = .ok (.readFifoQueue ws)) : ws.length ≤ maxFifoCount := by
  have carries := carries_carryOut img r
  rw [h] at carries
  obtain _ | _ | ⟨_, shape⟩ := carries
  cases shape
  simp only [carryOut] at h
  split at h
  · rename_i hread
    cases h
    exact bounded.read hread
  · cases h

theorem Carries.suits {img img' : Image} {r : Request} {served : Served} (h : img.Carries r served img')
    (regular : r.IsRegular) (queue : ∀ ws, served = .ok (.readFifoQueue ws) → ws.length ≤ maxFifoCount) :
    Suits r.function served := by
  cases h with
  | turnedAway h => obtain rfl | rfl := h <;> exact rfl
  | refused _ => exact rfl
  | answered _ shape =>
      refine ⟨shape.function, shape.isRegular ?_ fun ws hws => queue ws (congrArg _ hws)⟩
      rintro rfl
      cases shape
      exact regular rfl

theorem suits_carryOut {img : Image} (bounded : img.fifos.Bounded) {r : Request} (regular : r.IsRegular) :
    Suits r.function (img.carryOut r).1 :=
  (carries_carryOut img r).suits regular fun _ => queue_of_carryOut bounded

theorem suits_handle {img : Image} (bounded : img.fifos.Bounded) {r : Request} (regular : r.IsRegular) :
    Suits r.function (img.handle r).1 ∧ ∀ answer, (img.handle r).1 = .ok answer → answer.Fits := by
  refine ⟨?_, fun answer h => (carryOut_of_answer h).2⟩
  have h := suits_carryOut bounded regular
  cases hserved : (img.handle r).1 with
  | ok answer => rwa [(carryOut_of_answer hserved).1] at h
  | error e =>
      obtain he | ⟨_, _, _, rfl⟩ := carryOut_of_exception hserved
      · rwa [he] at h
      · exact rfl

end Image

namespace ImageService

def Reachable (s : ImageService) : Prop := ∀ img, s.image = some img → img.Reachable

theorem Reachable.handle {s : ImageService} (h : s.Reachable) (r : Request) : (s.handle r).2.Reachable := by
  unfold ImageService.handle
  split
  · exact h
  · rename_i img himg
    intro img' himg'
    cases himg'
    exact (h img himg).handle r

theorem Reachable.suits {s : ImageService} (h : s.Reachable) {r : Request} (regular : r.IsRegular) :
    Image.Suits r.function (s.handle r).1 ∧ ∀ answer, (s.handle r).1 = .ok answer → answer.Fits := by
  unfold ImageService.handle
  split
  · exact ⟨rfl, nofun⟩
  · rename_i img himg
    exact Image.suits_handle (h img himg).bounded regular

theorem unit_handle (s : ImageService) (r : Request) : (s.handle r).2.unit = s.unit := by
  unfold ImageService.handle
  split <;> rfl

def handleAll (s : ImageService) : List Request → List Served × ImageService
  | [] => ([], s)
  | r :: rs =>
    let (answer, s) := s.handle r
    let (answers, s) := s.handleAll rs
    (answer :: answers, s)

/-! ## Answers on the wire -/

/-- Every answer of an image that can be reached has the shape that its request asks for, and what a server sends for it
is its own PDU, from which a client reads it. -/
theorem handle_answers {s : ImageService} (reachable : s.Reachable) {r : Request} {answer : Response}
    (h : (s.handle r).1 = .ok answer) :
    answer.function = r.function ∧ r.AnsweredBy answer ∧ answer.Fits ∧
      (∀ ws, answer = .readFifoQueue ws → ws.length ≤ maxFifoCount) ∧
      ∃ pdu, Reply.toPdu? (.ok answer) = some pdu ∧ (∀ function, Server.replyPdu function (.ok answer) = pdu) ∧
        (answer ≠ .writeFileRecord [] → Reply.decode pdu = .ok (.ok answer.padded)) := by
  cases himg : s.image with
  | none =>
      rw [handle_of_none himg] at h
      cases h
  | some img =>
      rw [handle_of_image himg] at h
      obtain ⟨hserved, fits⟩ := Image.carryOut_of_answer h
      have carries := Image.carries_carryOut img r
      rw [hserved] at carries
      obtain _ | _ | ⟨_, shape⟩ := carries
      have queue (ws : List Word) (hws : answer = .readFifoQueue ws) : ws.length ≤ maxFifoCount :=
        Image.queue_of_carryOut (reachable img himg).bounded (hws ▸ hserved)
      have hpdu : Reply.toPdu? (.ok answer) = some answer.encode := if_pos fits
      refine ⟨shape.function, shape, fits, queue, answer.encode, hpdu, fun function => ?_, fun blocks => ?_⟩
      · rw [Server.replyPdu, hpdu, Option.getD_some]
      · exact Reply.decode_ok fits (shape.isRegular blocks queue)

/-- A queue of two values is read. -/
theorem handle_answers_queue :
    let queue : Fifos := ⟨Std.ExtTreeMap.insert ∅ 1246 [440, 4740]⟩
    let service : ImageService := { image := some { fifos := queue } }
    service.Reachable ∧ (service.handle (.readFifoQueue 1246)).1 = .ok (.readFifoQueue [440, 4740]) ∧
      Request.AnsweredBy (.readFifoQueue 1246) (.readFifoQueue [440, 4740]) ∧
      Server.replyPdu 24 (.ok (.readFifoQueue [440, 4740])) = [24, 0, 6, 0, 2, 1, 184, 18, 132] := by
  intro queue service
  have reachable : service.Reachable := by
    rintro _ ⟨⟩
    exact .fifos (.fifos (.fifos .empty (@Fifos.Edit.add _ 1246 _ rfl)) (@Fifos.Edit.push _ 1246 440 _ rfl))
      (@Fifos.Edit.push _ 1246 4740 _ rfl)
  have hanswer : (service.handle (.readFifoQueue 1246)).1 = .ok (.readFifoQueue [440, 4740]) := by rfl
  obtain ⟨_, shape, _, _, pdu, hpdu, hreply, _⟩ := handle_answers reachable hanswer
  refine ⟨reachable, hanswer, shape, (hreply 24).trans ?_⟩
  exact Option.some.inj (hpdu.symm.trans (by decide))

end ImageService

end Modbus
