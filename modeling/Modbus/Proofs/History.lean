import Mathlib.Data.List.Defs

/-!
# Histories

Something is worked on in any way, one operation after the other, and a log is kept of what came of each. What it holds
in the end is then told by its log. Operations that are refused leave it alone, so those that were granted are enough; and
if each operation concerns one place only, the operations elsewhere can be left out.
-/

namespace Modbus.History

variable {σ Op Out : Type}

/-- Each operation with what came of it, and what is left in the end. -/
def run (perform : σ → Op → Out × σ) (s : σ) : List Op → List (Op × Out) × σ
  | [] => ([], s)
  | op :: ops =>
    let (out, s) := perform s op
    let (log, s) := run perform s ops
    ((op, out) :: log, s)

variable {perform : σ → Op → Out × σ}

theorem run_cons (s : σ) (op : Op) (ops : List Op) :
    run perform s (op :: ops) =
      ((op, (perform s op).1) :: (run perform (perform s op).2 ops).1, (run perform (perform s op).2 ops).2) := rfl

theorem log_run (s : σ) (ops : List Op) : (run perform s ops).1.map (·.1) = ops := by
  induction ops generalizing s with
  | nil => rfl
  | cons op ops ih => rw [run_cons, List.map_cons, ih]

theorem run_induction {P : List (Op × Out) → σ → Prop} {start : σ} (nil : P [] start)
    (step : ∀ log s op, P log s → P (log ++ [(op, (perform s op).1)]) (perform s op).2) (ops : List Op) :
    P (run perform start ops).1 (run perform start ops).2 := by
  have go (log : List (Op × Out)) (s : σ) (h : P log s) : P (log ++ (run perform s ops).1) (run perform s ops).2 := by
    induction ops generalizing log s with
    | nil => exact (List.append_nil log).symm ▸ h
    | cons op ops ih =>
        rw [run_cons, ← List.singleton_append, ← List.append_assoc]
        exact ih _ _ (step log s op h)
  exact go [] start nil

section

variable {β : Type} (tells : Op → Option β)

theorem filterMap_snoc (history : List Op) (op : Op) :
    (history ++ [op]).filterMap tells = history.filterMap tells ++ (tells op).toList := by
  rw [List.filterMap_append]
  cases htells : tells op with
  | none => rw [List.filterMap_cons_none htells]; rfl
  | some said => rw [List.filterMap_cons_some htells]; rfl

def latest? (history : List Op) : Option β := (history.filterMap tells).getLast?

theorem latest?_snoc (history : List Op) (op : Op) :
    latest? tells (history ++ [op]) = (tells op).or (latest? tells history) := by
  rw [latest?, filterMap_snoc]
  cases tells op with
  | none => exact congrArg List.getLast? (List.append_nil _)
  | some said => exact List.getLast?_concat

end

/-! ## Refusals -/

section

variable {ε β : Type}

def granted (log : List (Op × Except ε β)) : List Op := (log.filter (·.2.isOk)).map (·.1)

/-- What comes of an operation that has nothing to tell if it is granted. -/
def attempt (s : σ) : Except ε σ → Except ε (Option β) × σ
  | .ok s' => (.ok none, s')
  | .error e => (.error e, s)

theorem attempt_refused {s : σ} {result : Except ε σ} {e : ε}
    (h : (attempt s result : Except ε (Option β) × σ).1 = .error e) :
    (attempt s result : Except ε (Option β) × σ).2 = s := by
  cases result with
  | ok s' => exact nomatch h
  | error e' => rfl

theorem granted_snoc_ok (log : List (Op × Except ε β)) (op : Op) (b : β) :
    granted (log ++ [(op, .ok b)]) = granted log ++ [op] := by
  rw [granted, List.filter_append, List.map_append]
  rfl

theorem granted_snoc_error (log : List (Op × Except ε β)) (op : Op) (e : ε) :
    granted (log ++ [(op, .error e)]) = granted log := by
  rw [granted, List.filter_append]
  exact congrArg (List.map _) (List.append_nil _)

variable {perform : σ → Op → Except ε β × σ}

/-- What is refused leaves no trace: without it the run is the same. -/
theorem run_granted (kept : ∀ s op e, (perform s op).1 = .error e → (perform s op).2 = s) (start : σ) (ops : List Op) :
    run perform start (granted (run perform start ops).1) =
      ((run perform start ops).1.filter (·.2.isOk), (run perform start ops).2) := by
  induction ops generalizing start with
  | nil => rfl
  | cons op ops ih =>
      have rest := ih (perform start op).2
      rw [run_cons, granted]
      cases hout : (perform start op).1 with
      | ok b =>
          rw [List.filter_cons_of_pos rfl, List.map_cons, run_cons, hout]
          exact Prod.ext (congrArg (List.cons _) (Prod.ext_iff.mp rest).1) (Prod.ext_iff.mp rest).2
      | error e =>
          rw [List.filter_cons_of_neg Bool.false_ne_true]
          rw [kept start op e hout] at rest ⊢
          exact rest

/-- If what is refused leaves everything alone, it is enough to look at what was granted. -/
theorem granted_induction {P : List Op → σ → Prop} {start : σ}
    (kept : ∀ s op e, (perform s op).1 = .error e → (perform s op).2 = s) (nil : P [] start)
    (step : ∀ history s op b, P history s → (perform s op).1 = .ok b → P (history ++ [op]) (perform s op).2)
    (ops : List Op) : P (granted (run perform start ops).1) (run perform start ops).2 := by
  refine run_induction (P := fun log s => P (granted log) s) nil (fun log s op h => ?_) ops
  cases hout : (perform s op).1 with
  | ok b =>
      rw [granted_snoc_ok]
      exact step _ s op b h hout
  | error e =>
      rw [granted_snoc_error, kept s op e hout]
      exact h

end

/-! ## Places -/

section

variable {Place Content : Type} [DecidableEq Place]

/-- Each operation deals with what stands at its own place, by the same rule everywhere, and with nothing else. -/
structure IsLocal (perform : σ → Op → Out × σ) (content : σ → Place → Content) (place : Op → Place)
    (rule : Content → Op → Out × Content) : Prop where
  outcome (s : σ) (op : Op) : (perform s op).1 = (rule (content s (place op)) op).1
  here (s : σ) (op : Op) : content (perform s op).2 (place op) = (rule (content s (place op)) op).2
  elsewhere (s : σ) (op : Op) {p : Place} : place op ≠ p → content (perform s op).2 p = content s p

variable {content : σ → Place → Content} {place : Op → Place} {rule : Content → Op → Out × Content}

/-- At each place things go as if there were only this place. -/
theorem IsLocal.run_eq (isLocal : IsLocal perform content place rule) (s : σ) (ops : List Op) (p : Place) :
    ((run perform s ops).1.filter (place ·.1 = p), content (run perform s ops).2 p) =
      run rule (content s p) (ops.filter (place · = p)) := by
  induction ops generalizing s with
  | nil => rfl
  | cons op ops ih =>
      have rest := Prod.ext_iff.mp (ih (perform s op).2)
      rw [run_cons]
      by_cases hp : place op = p
      · subst hp
        rw [isLocal.here] at rest
        rw [List.filter_cons_of_pos (by simp), List.filter_cons_of_pos (by simp), run_cons, isLocal.outcome]
        exact Prod.ext (congrArg (List.cons _) rest.1) rest.2
      · rw [isLocal.elsewhere s op hp] at rest
        rw [List.filter_cons_of_neg (by simpa using hp), List.filter_cons_of_neg (by simpa using hp)]
        exact Prod.ext rest.1 rest.2

theorem IsLocal.run_filter (isLocal : IsLocal perform content place rule) (s : σ) (ops : List Op) (p : Place) :
    (run perform s (ops.filter (place · = p))).1 = (run perform s ops).1.filter (place ·.1 = p) ∧
      content (run perform s (ops.filter (place · = p))).2 p = content (run perform s ops).2 p := by
  have alone := isLocal.run_eq s (ops.filter (place · = p)) p
  have among := isLocal.run_eq s ops p
  have hlog : (run perform s (ops.filter (place · = p))).1.filter (place ·.1 = p) =
      (run perform s (ops.filter (place · = p))).1 := by
    refine List.filter_eq_self.mpr fun entry hentry => ?_
    have hop : entry.1 ∈ ops.filter (place · = p) := by
      rw [← log_run s (ops.filter (place · = p))]
      exact List.mem_map_of_mem hentry
    exact (List.mem_filter.mp hop).2
  simp only [List.filter_filter, Bool.and_self] at alone
  rw [← among, hlog] at alone
  exact Prod.ext_iff.mp alone

end

end Modbus.History
