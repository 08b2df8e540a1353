import Calculator.Script

/-! What a script has to tell, line by line. Main statements: every line whose first character that
is no blank is there and is no `#` has a message of what it evaluates to, and no other line has one;
and a script that ends its last line is run as if alone whatever comes after it, and what comes after
is run as if alone but for the numbers of its lines. -/

namespace Calculator

namespace Text

/-- The text is empty or ends in a newline. -/
def EndsLine (text : Text) : Prop := ∀ c ∈ text.getLast?, c = '\n'

instance : DecidablePred EndsLine := fun text => Option.decidableForallMem text.getLast?

theorem EndsLine.tail {c : Char} {text : Text} (h : EndsLine (c :: text)) : text.EndsLine := by
  cases text with
  | nil => rintro _ ⟨⟩
  | cons d text => exact h

theorem EndsLine.exists_cons {c : Char} {text : Text} (h : EndsLine (c :: text)) (hc : c ≠ '\n') :
    ∃ d rest, text = d :: rest := by
  cases text with
  | nil => exact absurd (h c rfl) hc
  | cons d rest => exact ⟨d, rest, rfl⟩

end Text

namespace Script

/-! ### Lines -/

theorem lines_eq_nil_iff {text : Text} : lines text = [] ↔ text = [] := by
  fun_cases lines text <;> simp_all

/-- What comes after the end of a line makes lines of its own. -/
theorem lines_append {a : Text} (h : a.EndsLine) (b : Text) :
    lines (a ++ b) = lines a ++ lines b := by
  fun_induction lines a with
  | case1 => rfl
  | case2 text ih =>
    rw [List.cons_append, lines, ih h.tail]
    rfl
  | case3 text ih =>
    rw [List.cons_append, List.cons_append, lines, ih h.tail.tail]
    rfl
  | case4 c text hnewline _ hlines =>
    obtain ⟨d, rest, rfl⟩ := h.exists_cons hnewline
    cases lines_eq_nil_iff.1 hlines
  | case5 c text hnewline hreturn line rest hlines ih =>
    obtain ⟨d, text, rfl⟩ := h.exists_cons hnewline
    rw [List.cons_append, lines, ih h.tail, hlines]
    · rfl
    · exact hnewline
    · -- no carriage return in front of a newline, with or without the text after it
      rintro _ hc heq
      obtain ⟨rfl, _⟩ := List.cons.inj heq
      exact hreturn text hc rfl

theorem length_lines {a : Text} (h : a.EndsLine) : (lines a).length = a.count '\n' := by
  fun_induction lines a with
  | case1 => rfl
  | case2 text ih => rw [List.length_cons, ih h.tail, List.count_cons_self]
  | case3 text ih =>
    rw [List.length_cons, ih h.tail.tail, List.count_cons_of_ne (by decide), List.count_cons_self]
  | case4 c text hnewline _ hlines =>
    obtain ⟨d, rest, rfl⟩ := h.exists_cons hnewline
    cases lines_eq_nil_iff.1 hlines
  | case5 c text hnewline _ line rest hlines ih =>
    rw [List.count_cons_of_ne hnewline, ← ih h.tail, hlines]
    rfl

/-! ### Messages -/

/-- A line that is not blank and no comment. -/
def HasExpression (line : Text) : Prop :=
  line.trimBlanks ≠ [] ∧ line.trimBlanks.head? ≠ some '#'

instance (line : Text) : Decidable (HasExpression line) := inferInstanceAs (Decidable (_ ∧ _))

theorem isSkipped_iff {line : Text} : isSkipped line ↔ ¬HasExpression line := by
  rw [isSkipped, HasExpression]
  cases line.trimBlanks with
  | nil => simp
  | cons c rest => simp

/-- A line has an expression if its first character that is no blank is there and is no `#`. -/
theorem hasExpression_iff {line : Text} :
    HasExpression line ↔ ∃ c ∈ line.find? fun c => !Text.isBlank c, c ≠ '#' := by
  rw [HasExpression, ← Text.head?_trimBlanks]
  cases line.trimBlanks with
  | nil => simp
  | cons c rest => simp

/-- Trimming does not change what a line evaluates to. -/
theorem evaluate_trimBlanks (settings : Settings) (line : Text) :
    evaluate settings line.trimBlanks = evaluate settings line := by
  rw [evaluate, Text.stripBlanks_trimBlanks, evaluate]

/-- What became of the expression in a line, and the number of the line. -/
structure Message where
  line : Nat
  result : Except Error Float

namespace Message

/-- A value is a line of the output. -/
def stdout (message : Message) : String :=
  match message.result with
  | .ok value => String.ofList (Numeral.write value) ++ "\n"
  | .error _ => ""

/-- An error is told with the number of its line. -/
def stderr (message : Message) : String :=
  match message.result with
  | .ok _ => ""
  | .error e => "line " ++ message.line.repr ++ ": " ++ e.message ++ "\n"

def failed (message : Message) : Bool := !message.result.isOk

/-- The same `count` lines further down. -/
def down (count : Nat) (message : Message) : Message :=
  { message with line := message.line + count }

end Message

/-- The message of the line with number `n`, if it has an expression. -/
def message? (n : Nat) (line : Text) : Option Message :=
  if HasExpression line then some ⟨n, evaluate {} line.trimBlanks⟩ else none

/-- The messages of lines that are numbered from `n` on. -/
def messagesFrom (n : Nat) (lines : List Text) : List Message :=
  (lines.zipIdx n).filterMap fun (line, n) => message? n line

/-- One message for each line that has an expression, in the order of the lines. -/
def messages (script : Text) : List Message := messagesFrom 1 (lines script)

theorem message?_eq_some_iff {n : Nat} {line : Text} {message : Message} :
    message? n line = some message ↔
      (∃ c ∈ line.find? fun c => !Text.isBlank c, c ≠ '#') ∧ message = ⟨n, evaluate {} line⟩ := by
  rw [← hasExpression_iff, message?, evaluate_trimBlanks, Option.ite_none_right_eq_some,
    Option.some_inj, eq_comm]

/-- The messages, line by line: each is what the whole line evaluates to. -/
theorem mem_messages_iff {script : Text} {message : Message} :
    message ∈ messages script ↔ ∃ i line, (lines script)[i]? = some line ∧
      (∃ c ∈ line.find? fun c => !Text.isBlank c, c ≠ '#') ∧
        message = ⟨i + 1, evaluate {} line⟩ := by
  rw [messages, messagesFrom, List.mem_filterMap]
  constructor
  · rintro ⟨⟨line, n⟩, hmem, hmessage⟩
    obtain ⟨hn, hline⟩ := List.mk_mem_zipIdx_iff_le_and_getElem?_sub.1 hmem
    obtain ⟨hexpression, rfl⟩ := message?_eq_some_iff.1 hmessage
    exact ⟨n - 1, line, hline, hexpression, by rw [Nat.sub_add_cancel hn]⟩
  · rintro ⟨i, line, hline, hexpression, hmessage⟩
    refine ⟨(line, i + 1), ?_, message?_eq_some_iff.2 ⟨hexpression, hmessage⟩⟩
    exact List.mk_mem_zipIdx_iff_le_and_getElem?_sub.2 ⟨Nat.le_add_left 1 i, hline⟩

theorem message?_add (n count : Nat) (line : Text) :
    message? (n + count) line = (message? n line).map (.down count) := by
  rw [message?, message?]
  split <;> rfl

theorem messagesFrom_cons (n : Nat) (line : Text) (rest : List Text) :
    messagesFrom n (line :: rest) = (message? n line).toList ++ messagesFrom (n + 1) rest := by
  rw [messagesFrom, List.zipIdx_cons, List.filterMap_cons]
  dsimp only
  cases message? n line <;> rfl

theorem messagesFrom_append (n : Nat) (a b : List Text) :
    messagesFrom n (a ++ b) = messagesFrom n a ++ messagesFrom (n + a.length) b := by
  rw [messagesFrom, List.zipIdx_append, List.filterMap_append]
  rfl

theorem messagesFrom_add (n count : Nat) (lines : List Text) :
    messagesFrom (n + count) lines = (messagesFrom n lines).map (.down count) := by
  rw [messagesFrom, messagesFrom, Nat.add_comm n, ← List.map_snd_add_zipIdx_eq_zipIdx,
    List.filterMap_map, List.map_filterMap]
  congr 1
  funext ⟨line, m⟩
  exact message?_add m count line

theorem messages_append {a : Text} (h : a.EndsLine) (b : Text) :
    messages (a ++ b) = messages a ++ (messages b).map (.down (a.count '\n')) := by
  rw [messages, lines_append h, messagesFrom_append, length_lines h, messagesFrom_add]
  rfl

/-! ### Runs -/

/-- The messages are printed, each on its stream, and the status tells of the errors. -/
structure Shows (outcome : Outcome) (messages : List Message) : Prop where
  stdout : outcome.stdout = .join (messages.map Message.stdout)
  stderr : outcome.stderr = .join (messages.map Message.stderr)
  failed : outcome.failed = messages.any Message.failed

theorem Shows.append {a b : Outcome} {ms ms' : List Message} (h : Shows a ms) (h' : Shows b ms') :
    Shows (a ++ b) (ms ++ ms') := by
  constructor
  · rw [List.map_append, String.join_append, ← h.stdout, ← h'.stdout]
    rfl
  · rw [List.map_append, String.join_append, ← h.stderr, ← h'.stderr]
    rfl
  · rw [List.any_append, ← h.failed, ← h'.failed]
    rfl

theorem ofResult_shows (n : Nat) (result : Except Error Float) :
    Shows (.ofResult ("line " ++ n.repr ++ ": ") result) [⟨n, result⟩] := by
  cases result with
  | ok value => exact ⟨by simp [Outcome.ofResult, Message.stdout], rfl, rfl⟩
  | error e => exact ⟨rfl, by simp [Outcome.ofResult, Outcome.failure, Message.stderr], rfl⟩

theorem runLine_shows (n : Nat) (line : Text) :
    Shows (runLine n line) (message? n line).toList := by
  rw [runLine, message?]
  by_cases hline : HasExpression line
  · rw [if_neg fun h => isSkipped_iff.1 h hline, if_pos hline]
    exact ofResult_shows n _
  · rw [if_pos (isSkipped_iff.2 hline), if_neg hline]
    exact ⟨rfl, rfl, rfl⟩

theorem runLines_shows (n : Nat) (lines : List Text) :
    Shows (runLines n lines) (messagesFrom n lines) := by
  induction lines generalizing n with
  | nil => exact ⟨rfl, rfl, rfl⟩
  | cons line rest ih =>
    rw [runLines, messagesFrom_cons]
    exact (runLine_shows n line).append (ih (n + 1))

theorem run_shows (script : Text) : Shows (run script) (messages script) :=
  runLines_shows 1 (lines script)

theorem status_eq_one_iff {outcome : Outcome} : outcome.status = 1 ↔ outcome.failed := by
  rw [Outcome.status]
  cases outcome.failed <;> simp

/-- A run of any script prints one message for each line that has an expression. A script that ends
its last line leaves behind, together with another one after it, what the two leave behind alone,
but that the lines of the second one are counted on from the first one. -/
theorem run_append :
    (∀ script, Shows (run script) (messages script)) ∧
    ∀ a b : Text, a.EndsLine →
      (run (a ++ b)).stdout = (run a).stdout ++ (run b).stdout ∧
      (run (a ++ b)).stderr = (run a).stderr ++
        .join ((messages b).map fun message => (message.down (a.count '\n')).stderr) ∧
      ((run (a ++ b)).status = 1 ↔ (run a).status = 1 ∨ (run b).status = 1) := by
  refine ⟨run_shows, fun a b h => ?_⟩
  have ha := run_shows a
  have hb := run_shows b
  have hab := run_shows (a ++ b)
  rw [messages_append h] at hab
  refine ⟨?_, ?_, ?_⟩
  · rw [hab.stdout, List.map_append, String.join_append, List.map_map, ha.stdout, hb.stdout]
    rfl
  · rw [hab.stderr, List.map_append, String.join_append, List.map_map, ha.stderr]
    rfl
  · simp only [status_eq_one_iff, hab.failed, ha.failed, hb.failed, List.any_append, List.any_map,
      Bool.or_eq_true]
    rfl

/-- A comment, a line that fails and a value, and after them another line that fails. -/
theorem run_append_failures :
    (run ("# a\r\n(2\n1+1\n".toList ++ "()\n".toList)).stdout = "2\n" ∧
    (run ("# a\r\n(2\n1+1\n".toList ++ "()\n".toList)).stderr =
      "line 2: Error at '(2': Unmatched parenthesis.\n" ++
        "line 4: Error at '()': Parentheses enclose no expression.\n" ∧
    (run ("# a\r\n(2\n1+1\n".toList ++ "()\n".toList)).status = 1 := by
  obtain ⟨hstdout, hstderr, hstatus⟩ :=
    run_append.2 "# a\r\n(2\n1+1\n".toList "()\n".toList (by decide)
  refine ⟨hstdout.trans ?_, hstderr.trans ?_, hstatus.2 (.inl ?_)⟩ <;> decide +kernel

end Script

end Calculator
