import Mathlib.Data.List.DropRight
import Modbus.Proofs.History
import Modbus.Proofs.Image.Answers

/-!
# Queues and what has been pushed to them

Whatever is done to the queues of an image, and whatever of it is refused, each of them holds the values that were pushed
to it since it was last added or cleared, in that order, and never more than fit into an answer. A queue does not notice
what is done at other addresses.
-/

namespace Modbus.Fifos

/-! ## Operations -/

inductive Operation
  | add (addr : Address)
  | remove (addr : Address)
  | push (addr : Address) (value : Word)
  | clear (addr : Address)
  | read (addr : Address)

/-- What comes of an operation: a read tells what the queue holds, a removal what it held. -/
abbrev Outcome := Except ImageError (Option (List Word))

def perform (fs : Fifos) : Operation → Outcome × Fifos
  | .add addr => History.attempt fs (fs.add addr)
  | .remove addr => (.ok (fs.queue? addr), fs.remove addr)
  | .push addr value => History.attempt fs (fs.push addr value)
  | .clear addr => History.attempt fs (fs.clear addr)
  | .read addr => ((fs.read addr).map some, fs)

namespace Operation

def addr : Operation → Address
  | add addr | remove addr | push addr _ | clear addr | read addr => addr

def opens (addr : Address) : Operation → Option Bool
  | add a => if a = addr then some true else none
  | remove a => if a = addr then some false else none
  | push .. | clear _ | read _ => none

def restarts (addr : Address) : Operation → Bool
  | add a | clear a => a = addr
  | remove _ | push .. | read _ => false

def pushed? (addr : Address) : Operation → Option Word
  | push a value => if a = addr then some value else none
  | add _ | remove _ | clear _ | read _ => none

/-- What an operation comes to for the queue at its address, if there is one: what is said, and the queue afterwards. -/
def rule : Option (List Word) → Operation → Outcome × Option (List Word)
  | none, add _ => (.ok none, some [])
  | some queue, add addr => (.error (.duplicateAddress addr), some queue)
  | queue, remove _ => (.ok queue, none)
  | none, push addr _ | none, clear addr | none, read addr => (.error (.illegalAddress addr), none)
  | some queue, push addr value =>
    if maxFifoCount ≤ queue.length then (.error (.queueFull addr), some queue)
    else (.ok none, some (queue ++ [value]))
  | some _, clear _ => (.ok none, some [])
  | some queue, read _ => (.ok (some queue), some queue)

end Operation

def IsOpen (addr : Address) (history : List Operation) : Prop := History.latest? (·.opens addr) history = some true

instance (addr : Address) (history : List Operation) : Decidable (IsOpen addr history) :=
  inferInstanceAs (Decidable (_ = _))

/-- The values that were pushed to an address since its queue was last added or cleared, oldest first. -/
def pushedSince (addr : Address) (history : List Operation) : List Word :=
  (history.rtakeWhile fun op => !op.restarts addr).filterMap (·.pushed? addr)

def told (addr : Address) (history : List Operation) : Option (List Word) :=
  if IsOpen addr history then some (pushedSince addr history) else none

/-! ## Steps -/

theorem queue?_insert (fs : Fifos) (addr a : Address) (queue : List Word) :
    queue? ⟨fs.queues.insert addr queue⟩ a = if addr = a then some queue else fs.queue? a := by
  simp only [queue?, Std.ExtTreeMap.getElem?_insert, Std.compare_eq_iff_eq]

theorem queue?_remove (fs : Fifos) (addr a : Address) :
    (fs.remove addr).queue? a = if addr = a then none else fs.queue? a := by
  simp only [queue?, remove, Std.ExtTreeMap.getElem?_erase, Std.compare_eq_iff_eq]

theorem add_eq (fs : Fifos) (addr : Address) :
    fs.add addr = match fs.queue? addr with
      | some _ => .error (.duplicateAddress addr)
      | none => .ok ⟨fs.queues.insert addr []⟩ := by
  simp only [add, Std.ExtTreeMap.mem_iff_isSome_getElem?]
  rw [show fs.queues[addr]? = fs.queue? addr from rfl]
  cases fs.queue? addr <;> rfl

theorem read_eq (fs : Fifos) (addr : Address) :
    fs.read addr = match fs.queue? addr with
      | some queue => .ok queue
      | none => .error (.illegalAddress addr) := rfl

theorem push_eq (fs : Fifos) (addr : Address) (value : Word) :
    fs.push addr value = match fs.queue? addr with
      | some queue =>
        if maxFifoCount ≤ queue.length then .error (.queueFull addr)
        else .ok ⟨fs.queues.insert addr (queue ++ [value])⟩
      | none => .error (.illegalAddress addr) := by
  rw [push, read_eq]
  cases fs.queue? addr <;> rfl

theorem clear_eq (fs : Fifos) (addr : Address) :
    fs.clear addr = match fs.queue? addr with
      | some _ => .ok ⟨fs.queues.insert addr []⟩
      | none => .error (.illegalAddress addr) := by
  rw [clear, read_eq]
  cases fs.queue? addr <;> rfl

/-- Each operation follows the rule at its address and leaves all other queues alone. -/
theorem perform_spec (fs : Fifos) (op : Operation) :
    (fs.perform op).1 = (Operation.rule (fs.queue? op.addr) op).1 ∧
      ∀ a, (fs.perform op).2.queue? a =
        if op.addr = a then (Operation.rule (fs.queue? op.addr) op).2 else fs.queue? a := by
  have same {addr : Address} {queue : Option (List Word)} (h : fs.queue? addr = queue) (a : Address) :
      fs.queue? a = if addr = a then queue else fs.queue? a := by
    split
    · rename_i ha
      rw [← ha, h]
    · rfl
  cases op with
  | add addr =>
      simp only [perform, add_eq, Operation.addr]
      cases hqueue : fs.queue? addr with
      | none => exact ⟨rfl, fun a => queue?_insert fs addr a []⟩
      | some queue => exact ⟨rfl, same hqueue⟩
  | remove addr =>
      simp only [perform, Operation.rule, Operation.addr, true_and]
      exact queue?_remove fs addr
  | push addr value =>
      simp only [perform, push_eq, Operation.addr]
      cases hqueue : fs.queue? addr with
      | none => exact ⟨rfl, same hqueue⟩
      | some queue =>
          simp only [Operation.rule]
          split
          · exact ⟨rfl, same hqueue⟩
          · exact ⟨rfl, fun a => queue?_insert fs addr a _⟩
  | clear addr =>
      simp only [perform, clear_eq, Operation.addr]
      cases hqueue : fs.queue? addr with
      | none => exact ⟨rfl, same hqueue⟩
      | some queue => exact ⟨rfl, fun a => queue?_insert fs addr a []⟩
  | read addr =>
      simp only [perform, read_eq, Operation.addr]
      cases hqueue : fs.queue? addr <;> exact ⟨rfl, same hqueue⟩

theorem isLocal_perform : History.IsLocal perform queue? Operation.addr Operation.rule where
  outcome fs op := (fs.perform_spec op).1
  here fs op := ((fs.perform_spec op).2 op.addr).trans (if_pos rfl)
  elsewhere fs op p h := ((fs.perform_spec op).2 p).trans (if_neg h)

theorem perform_refused {fs : Fifos} {op : Operation} {e : ImageError} (h : (fs.perform op).1 = .error e) :
    (fs.perform op).2 = fs := by
  cases op with
  | remove addr => exact nomatch h
  | read addr => rfl
  | add addr | push addr value | clear addr => exact History.attempt_refused h

theorem accepts_push_iff (fs : Fifos) (addr : Address) (value : Word) :
    (∃ out, (fs.perform (.push addr value)).1 = .ok out) ↔
      ∃ queue, fs.queue? addr = some queue ∧ queue.length < 31 := by
  rw [perform, push_eq]
  cases fs.queue? addr with
  | none => exact iff_of_false (fun ⟨_, h⟩ => nomatch h) fun ⟨_, h, _⟩ => nomatch h
  | some queue =>
      dsimp only
      by_cases full : maxFifoCount ≤ queue.length
      · rw [if_pos full]
        refine iff_of_false (fun ⟨_, h⟩ => nomatch h) ?_
        rintro ⟨_, ⟨⟩, room⟩
        exact Nat.not_lt.mpr full room
      · rw [if_neg full]
        exact iff_of_true ⟨none, rfl⟩ ⟨queue, rfl, Nat.not_le.mp full⟩

/-! ## Histories -/

theorem pushedSince_snoc (addr : Address) (history : List Operation) (op : Operation) :
    pushedSince addr (history ++ [op]) =
      if op.restarts addr then [] else pushedSince addr history ++ (op.pushed? addr).toList := by
  unfold pushedSince
  rw [List.rtakeWhile_concat]
  cases op.restarts addr with
  | true => rfl
  | false => exact History.filterMap_snoc _ _ op

theorem isOpen_snoc (addr : Address) (history : List Operation) (op : Operation) :
    IsOpen addr (history ++ [op]) ↔ op.opens addr = some true ∨ op.opens addr = none ∧ IsOpen addr history := by
  unfold IsOpen
  rw [History.latest?_snoc]
  cases op.opens addr <;> simp

theorem told_elsewhere {addr : Address} {op : Operation} (h : op.addr ≠ addr) (history : List Operation) :
    told addr (history ++ [op]) = told addr history := by
  have hopens : op.opens addr = none := by cases op <;> first | rfl | exact if_neg h
  have hrestarts : op.restarts addr = false := by cases op <;> first | rfl | exact decide_eq_false h
  have hpushed : op.pushed? addr = none := by cases op <;> first | rfl | exact if_neg h
  simp [told, isOpen_snoc, pushedSince_snoc, hopens, hrestarts, hpushed]

theorem told_add (addr : Address) (history : List Operation) : told addr (history ++ [.add addr]) = some [] := by
  simp [told, isOpen_snoc, pushedSince_snoc, Operation.opens, Operation.restarts]

theorem told_remove (addr : Address) (history : List Operation) : told addr (history ++ [.remove addr]) = none := by
  simp [told, isOpen_snoc, Operation.opens]

theorem told_push (addr : Address) (value : Word) (history : List Operation) :
    told addr (history ++ [.push addr value]) = (told addr history).map (· ++ [value]) := by
  simp only [told, isOpen_snoc, pushedSince_snoc, Operation.opens, Operation.restarts, Operation.pushed?]
  split <;> simp_all

theorem told_clear (addr : Address) (history : List Operation) :
    told addr (history ++ [.clear addr]) = (told addr history).map fun _ => [] := by
  simp only [told, isOpen_snoc, pushedSince_snoc, Operation.opens, Operation.restarts]
  split <;> simp_all

theorem told_read (addr : Address) (history : List Operation) :
    told addr (history ++ [.read addr]) = told addr history := by
  simp [told, isOpen_snoc, pushedSince_snoc, Operation.opens, Operation.restarts, Operation.pushed?]

theorem told_here {op : Operation} {history : List Operation} {out : Option (List Word)}
    (h : (Operation.rule (told op.addr history) op).1 = .ok out) :
    (Operation.rule (told op.addr history) op).2 = told op.addr (history ++ [op]) := by
  cases op with
  | add addr =>
      simp only [Operation.addr, told_add] at h ⊢
      cases htold : told addr history with
      | none => rfl
      | some queue => rw [htold] at h; cases h
  | remove addr =>
      simp only [Operation.addr, told_remove]
      cases told addr history <;> rfl
  | push addr value =>
      simp only [Operation.addr, told_push] at h ⊢
      cases htold : told addr history with
      | none => rw [htold] at h; cases h
      | some queue =>
          rw [htold] at h
          simp only [Operation.rule] at h ⊢
          split at h
          · cases h
          · rename_i room
            rw [if_neg room]
            rfl
  | clear addr =>
      simp only [Operation.addr, told_clear] at h ⊢
      cases htold : told addr history <;> rfl
  | read addr =>
      simp only [Operation.addr, told_read] at h ⊢
      cases htold : told addr history <;> rfl

/-- Whatever was done, every queue holds what the granted operations tell. -/
theorem queue?_run (operations : List Operation) (addr : Address) :
    (History.run perform {} operations).2.queue? addr =
      told addr (History.granted (History.run perform {} operations).1) := by
  refine History.granted_induction (P := fun history fs => ∀ addr, fs.queue? addr = told addr history)
    (fun fs op e => perform_refused) (fun addr => ?_) (fun history fs op out htold hout addr => ?_) operations addr
  · exact Std.ExtTreeMap.getElem?_empty
  · obtain ⟨houtcome, hafter⟩ := fs.perform_spec op
    rw [houtcome, htold] at hout
    rw [hafter, htold]
    split
    · rename_i haddr
      rw [← haddr]
      exact told_here hout
    · rename_i haddr
      rw [htold, told_elsewhere haddr]

theorem edit_perform (fs : Fifos) (op : Operation) : (fs.perform op).2 = fs ∨ fs.Edit (fs.perform op).2 := by
  cases op with
  | add addr =>
      rw [perform]
      cases h : fs.add addr with
      | ok fs' => exact .inr (.add h)
      | error e => exact .inl rfl
  | remove addr => exact .inr (.remove addr)
  | push addr value =>
      rw [perform]
      cases h : fs.push addr value with
      | ok fs' => exact .inr (.push h)
      | error e => exact .inl rfl
  | clear addr =>
      rw [perform]
      cases h : fs.clear addr with
      | ok fs' => exact .inr (.clear h)
      | error e => exact .inl rfl
  | read addr => exact .inl rfl

theorem bounded_run (operations : List Operation) : (History.run perform {} operations).2.Bounded := by
  refine History.run_induction (P := fun _ (fs : Fifos) => fs.Bounded) bounded_empty (fun _ fs op bounded => ?_) operations
  obtain hsame | edit := fs.edit_perform op
  · rw [hsame]
    exact bounded
  · exact bounded.edit edit

/-- Whatever is done to queues, each holds the accepted pushes since it was last added or cleared, oldest first and at most
31 of them; what is refused and what is read changes nothing, and nothing done at another address is noticed. -/
theorem run_keeps_order (operations : List Operation) :
    let log := (History.run perform {} operations).1
    let fs := (History.run perform {} operations).2
    (∀ addr, fs.queue? addr =
      if IsOpen addr (History.granted log) then some (pushedSince addr (History.granted log)) else none) ∧
    (∀ addr queue, fs.queue? addr = some queue → queue.length ≤ 31) ∧
    (∀ addr value, (∃ out, (fs.perform (.push addr value)).1 = .ok out) ↔
      ∃ queue, fs.queue? addr = some queue ∧ queue.length < 31) ∧
    (∀ op e, (fs.perform op).1 = .error e → (fs.perform op).2 = fs) ∧
    (∀ addr, fs.perform (.read addr) = (match fs.queue? addr with
      | some queue => .ok (some queue)
      | none => .error (.illegalAddress addr), fs)) ∧
    (∀ op addr, op.addr ≠ addr → (fs.perform op).2.queue? addr = fs.queue? addr) ∧
    ∀ addr,
      let own := History.run perform {} (operations.filter (·.addr = addr))
      own.1 = log.filter (·.1.addr = addr) ∧ own.2.queue? addr = fs.queue? addr := by
  intro log fs
  refine ⟨queue?_run operations, bounded_run operations, fs.accepts_push_iff, fun op e => perform_refused,
    fun addr => ?_, fun op addr => isLocal_perform.elsewhere fs op, isLocal_perform.run_filter {} operations⟩
  rw [perform, read_eq]
  cases fs.queue? addr <;> rfl

end Modbus.Fifos
