import Hedos.Gateway.AuditLog

/-!
# Counting rejected requests

`gateway/src/audit.rs`: a rejected request is written as a line of its own, or counted in the open
window and told of in the summary that closes it.

The lines a run writes are told apart by what they were written for (`Line`). After every run of
`append`, `append_unauthorized` and `flush` each rejected request is in one of the three places
(`unauthorized_accounted`).
-/

namespace Hedos.Gateway.Audit

/-! ## Lines -/

/-- What a line of the log was written for. -/
inductive Line
  | served (entry : GatewayAuditEntry)
  | rejected (entry : GatewayAuditEntry)
  | summed (start : ℤ) (suppressed : ℕ)

namespace Line

def entry : Line → GatewayAuditEntry
  | served entry | rejected entry => entry
  | summed start suppressed => GatewayAuditLog.summary start suppressed

/-- The rejected requests a line stands for. -/
def requests : Line → ℕ
  | served _ => 0
  | rejected _ => 1
  | summed _ suppressed => suppressed

def isRejected : Line → Bool
  | rejected _ => true
  | _ => false

/-- The count a summary was written with. -/
def suppressed : Line → ℕ
  | summed _ suppressed => suppressed
  | _ => 0

end Line

namespace GatewayAuditLog

/-- The line that closes the window. -/
def flushLines (log : GatewayAuditLog) : List Line :=
  match log.unauthorized.startMillis with
  | none => []
  | some start =>
    if log.unauthorized.suppressed = 0 then [] else [.summed start log.unauthorized.suppressed]

/-- The request falls into the open window. -/
def inWindow (log : GatewayAuditLog) (entry : GatewayAuditEntry) : Bool :=
  log.unauthorized.startMillis.any fun start => elapsed start entry.ts < unauthorizedWindowMs

/-- The lines that a call writes. -/
def callLines (log : GatewayAuditLog) : Call → List Line
  | .append entry => log.flushLines ++ [.served entry]
  | .appendUnauthorized entry =>
    if log.inWindow entry then [] else log.flushLines ++ [.rejected entry]
  | .flush => log.flushLines

/-- The lines that some calls write, one after another. -/
def linesFrom (log : GatewayAuditLog) : List Call → List Line
  | [] => []
  | c :: calls => log.callLines c ++ (log.call c).linesFrom calls

/-- The lines of a run on a new directory. -/
def runLines (serde : Serde) (maxBytes : ℕ) (calls : List Call) : List Line :=
  linesFrom { serde, maxBytes } calls

def Call.isUnauthorized : Call → Bool
  | .appendUnauthorized _ => true
  | _ => false

/-! ## One call -/

/-- Nothing is counted while no window is open. -/
def CountsInWindow (log : GatewayAuditLog) : Prop :=
  log.unauthorized.startMillis = none → log.unauthorized.suppressed = 0

theorem flushUnauthorized_persisted (log : GatewayAuditLog) :
    log.flushUnauthorized.persisted = log.persisted ++ log.flushLines.map Line.entry := by
  unfold flushUnauthorized flushLines
  cases log.unauthorized.startMillis with
  | none => simp
  | some start =>
    simp only
    split
    · simp
    · rfl

theorem flushUnauthorized_window (log : GatewayAuditLog) :
    log.flushUnauthorized.unauthorized = {} := by
  unfold flushUnauthorized
  cases log.unauthorized.startMillis with
  | none => rfl
  | some start =>
    simp only
    split <;> rfl

variable {log : GatewayAuditLog}

/-- A closed window gives its count to the summary. -/
theorem flushLines_requests (h : log.CountsInWindow) :
    (log.flushLines.map Line.requests).sum = log.unauthorized.suppressed := by
  unfold flushLines
  cases hstart : log.unauthorized.startMillis with
  | none => simp [h hstart]
  | some start =>
    simp only
    split
    · rename_i hzero
      simp [hzero]
    · simp [Line.requests]

/-- A request that is counted changes the window alone, one that is not opens a new window. -/
theorem appendUnauthorized_eq (log : GatewayAuditLog) (entry : GatewayAuditEntry) :
    log.appendUnauthorized entry =
      if log.inWindow entry then
        { log with unauthorized :=
            { log.unauthorized with suppressed := log.unauthorized.suppressed + 1 } }
      else
        persist { log.flushUnauthorized with unauthorized := { startMillis := some entry.ts } }
          entry := by
  unfold appendUnauthorized inWindow
  cases log.unauthorized.startMillis with
  | none => rfl
  | some start =>
    simp only [Option.any_some, decide_eq_true_eq]

theorem call_persisted (log : GatewayAuditLog) (c : Call) :
    (log.call c).persisted = log.persisted ++ (log.callLines c).map Line.entry := by
  cases c with
  | append entry =>
    show (log.flushUnauthorized.persist entry).persisted = _
    simp [persist, flushUnauthorized_persisted, callLines, Line.entry]
  | appendUnauthorized entry =>
    show (log.appendUnauthorized entry).persisted = _
    rw [appendUnauthorized_eq, callLines]
    split
    · simp
    · simp [persist, flushUnauthorized_persisted, Line.entry]
  | flush => exact flushUnauthorized_persisted log

theorem call_countsInWindow (log : GatewayAuditLog) (c : Call) : (log.call c).CountsInWindow := by
  cases c with
  | append entry =>
    intro _
    show log.flushUnauthorized.unauthorized.suppressed = 0
    rw [flushUnauthorized_window]
  | appendUnauthorized entry =>
    show (log.appendUnauthorized entry).CountsInWindow
    rw [appendUnauthorized_eq]
    split
    · rename_i hin
      intro hnone
      have hstart : log.unauthorized.startMillis = none := hnone
      simp [inWindow, hstart] at hin
    · rintro ⟨⟩
  | flush =>
    intro _
    show log.flushUnauthorized.unauthorized.suppressed = 0
    rw [flushUnauthorized_window]

/-- What a call writes and leaves counted is what was counted, and the request it is told of. -/
theorem call_requests (h : log.CountsInWindow) (c : Call) :
    ((log.callLines c).map Line.requests).sum + (log.call c).unauthorized.suppressed =
      log.unauthorized.suppressed + if c.isUnauthorized then 1 else 0 := by
  have hflush := flushLines_requests h
  cases c with
  | append entry =>
    have hwindow : (log.call (.append entry)).unauthorized.suppressed = 0 := by
      show log.flushUnauthorized.unauthorized.suppressed = 0
      rw [flushUnauthorized_window]
    rw [hwindow]
    simp [callLines, Line.requests, Call.isUnauthorized, hflush]
  | appendUnauthorized entry =>
    show _ + (log.appendUnauthorized entry).unauthorized.suppressed = _
    rw [appendUnauthorized_eq, callLines]
    split
    · simp [Call.isUnauthorized]
    · simp [persist, Line.requests, Call.isUnauthorized, hflush]
  | flush =>
    have hwindow : (log.call .flush).unauthorized.suppressed = 0 := by
      show log.flushUnauthorized.unauthorized.suppressed = 0
      rw [flushUnauthorized_window]
    rw [hwindow]
    simp [callLines, Call.isUnauthorized, hflush]

/-! ## Every run -/

theorem foldl_call_persisted (log : GatewayAuditLog) (calls : List Call) :
    (calls.foldl call log).persisted = log.persisted ++ (log.linesFrom calls).map Line.entry := by
  induction calls generalizing log with
  | nil => simp [linesFrom]
  | cons c calls ih =>
    rw [List.foldl_cons, ih, call_persisted, linesFrom, List.map_append, List.append_assoc]

theorem foldl_call_requests (h : log.CountsInWindow) (calls : List Call) :
    ((log.linesFrom calls).map Line.requests).sum + (calls.foldl call log).unauthorized.suppressed =
      log.unauthorized.suppressed + calls.countP Call.isUnauthorized := by
  induction calls generalizing log with
  | nil => simp [linesFrom]
  | cons c calls ih =>
    have hstep := call_requests h c
    have hrest := ih (call_countsInWindow log c)
    rw [List.foldl_cons, linesFrom, List.map_append, List.sum_append, List.countP_cons]
    omega

theorem sum_requests (lines : List Line) :
    (lines.map Line.requests).sum =
      lines.countP Line.isRejected + (lines.map Line.suppressed).sum := by
  induction lines with
  | nil => rfl
  | cons line lines ih =>
    rw [List.map_cons, List.sum_cons, List.countP_cons, List.map_cons, List.sum_cons, ih]
    cases line <;> simp [Line.requests, Line.isRejected, Line.suppressed]
    all_goals omega

/-- For every run of calls at any times: the log holds the lines of the run, and the rejected
requests are the lines of their own, the counts of the summaries and the count of the window. -/
theorem unauthorized_accounted (serde : Serde) (maxBytes : ℕ) (calls : List Call) :
    (run serde maxBytes calls).persisted = (runLines serde maxBytes calls).map Line.entry ∧
      calls.countP Call.isUnauthorized =
        (runLines serde maxBytes calls).countP Line.isRejected +
          ((runLines serde maxBytes calls).map Line.suppressed).sum +
            (run serde maxBytes calls).unauthorized.suppressed := by
  refine ⟨(foldl_call_persisted _ calls).trans (List.nil_append _), ?_⟩
  have hopen : CountsInWindow { serde, maxBytes } := fun _ => rfl
  have hcount := foldl_call_requests hopen calls
  have hsum := sum_requests (runLines serde maxBytes calls)
  have hstart : ({ serde, maxBytes } : GatewayAuditLog).unauthorized.suppressed = 0 := rfl
  rw [hstart, Nat.zero_add] at hcount
  rw [← hcount, ← hsum]
  rfl

end GatewayAuditLog

end Hedos.Gateway.Audit
