import RepoManager.Library.ShellExpansion

/-!
# What a line counts

The potential of a state of the reader is the number of literal bytes and of words that it has read,
less the operators. No byte of a line raises it by more than one, and at the end of the line the
tokens count no more than it.
-/

namespace Shell

/-! ## The potential -/

/-- The literal bytes of a word. -/
def size (word : Word) : ℕ := word.countP Part.isLiteral

/-- What a token counts. -/
def weight : Token → ℤ
  | .word word => size word + 1
  | .operator _ => -1
  | _ => 0

/-- What some tokens count. -/
def weights : List Token → ℤ
  | [] => 0
  | token :: tokens => weight token + weights tokens

/-- What the tokens and the word of a state count, with the end of the word. -/
def State.base (state : State) : ℤ := weights state.tokens + size (state.word.getD []) + 1

/-- A byte that is not yet decided. -/
def Pending.credit : Pending → ℤ
  | .operator _ => -1
  | .angle _ => 0
  | .dollar _ => 1
  | .name _ _ => 0

/-- The same for a mode. -/
def credit : Mode → ℤ
  | .pending what => what.credit
  | .held what => what.credit + 1
  | .backslash _ => 1
  | .normal => 0
  | .comment => 0
  | .single => 0
  | .double => 0
  | .ansi _ _ => 0
  | .backquote _ _ _ => 0
  | .nested _ _ => 0

/-- What a state counts. -/
def State.potential (state : State) : ℤ := state.base + credit state.mode

@[simp] theorem size_nil : size [] = 0 := rfl

@[simp] theorem size_append (left right : Word) :
    size (left ++ right) = size left + size right := List.countP_append ..

@[simp] theorem size_literal (byte : UInt8) (quoted : Bool) : size [.literal byte quoted] = 1 := rfl

@[simp] theorem size_mark (byte : UInt8) : size [.mark byte] = 0 := rfl

@[simp] theorem size_substitution (text : ByteString) : size [.substitution text] = 0 := rfl

@[simp] theorem weight_newline : weight .newline = 0 := rfl

@[simp] theorem weights_nil : weights [] = 0 := rfl

@[simp] theorem weights_cons (token : Token) (tokens : List Token) :
    weights (token :: tokens) = weight token + weights tokens := rfl

@[simp] theorem weights_append (left right : List Token) :
    weights (left ++ right) = weights left + weights right := by
  induction left with
  | nil => exact (Int.zero_add _).symm
  | cons token left ih =>
    rw [List.cons_append, weights_cons, weights_cons, ih, Int.add_assoc]

@[simp] theorem weights_singleton (token : Token) : weights [token] = weight token :=
  Int.add_zero _

section Base

variable (state : State) (mode : Mode)

@[simp] theorem State.base_append (part : Part) :
    (state.append part mode).base = state.base + size [part] := by
  simp only [base, append, Option.getD_some, size_append]
  omega

@[simp] theorem State.base_push (token : Token) :
    (state.push token mode).base = state.base + weight token := by
  simp only [base, push, weights_append, weights_singleton]
  omega

/-- The end of a word is counted with the blank after it. -/
theorem State.base_endWord :
    (state.endWord mode).base = state.base + if state.word = none then 0 else 1 := by
  obtain ⟨tokens, word, _⟩ := state
  cases word with
  | none => simp [base, endWord]
  | some word =>
    simp only [base, endWord, Option.map_some, Option.toList_some, weights_append,
      weights_singleton, weight, Option.getD_none, Option.getD_some, size_nil, reduceCtorEq,
      if_false]
    omega

/-- The end of a word counts one at most. -/
theorem State.base_endWord_le : (state.endWord mode).base ≤ state.base + 1 := by
  rw [base_endWord]
  split <;> omega

/-- So does the end of a descriptor. -/
theorem State.base_endDescriptor_le : (state.endDescriptor mode).base ≤ state.base + 1 := by
  unfold endDescriptor
  split
  · next word hsome =>
    split
    · simp only [base, hsome, weights_append, weights_singleton, weight, Option.getD_none,
        Option.getD_some, size_nil]
      omega
    · exact base_endWord_le state mode
  · exact base_endWord_le state mode

theorem State.potential_into : (state.into mode).potential = state.base + credit mode := rfl

theorem State.potential_begin : (state.begin mode).potential = state.base + credit mode := rfl

theorem State.potential_append (part : Part) :
    (state.append part mode).potential = state.base + size [part] + credit mode := by
  rw [potential, base_append]
  rfl

theorem State.potential_push (token : Token) :
    (state.push token mode).potential = state.base + weight token + credit mode := by
  rw [potential, base_push]
  rfl

/-- The end of a word counts one, and what is read then may count less. -/
theorem State.potential_endWord_le :
    (state.endWord mode).potential ≤ state.base + 1 + credit mode :=
  Int.add_le_add_right (state.base_endWord_le mode) (credit mode)

/-- The mode around a substitution is decided. -/
theorem credit_outer (quoted : Bool) : credit (outer quoted) = 0 := by
  cases quoted <;> rfl

/-- A part is one byte at most. -/
theorem size_part_le (part : Part) : size [part] ≤ 1 := by
  cases part <;> simp

variable {mode}

/-- To go on in another mode counts what is left to decide. -/
theorem State.into_le (hmode : credit mode ≤ 1) : (state.into mode).potential ≤ state.base + 1 :=
  Int.add_le_add_left hmode state.base

/-- So does the beginning of a word. -/
theorem State.begin_le (hmode : credit mode ≤ 1) : (state.begin mode).potential ≤ state.base + 1 :=
  Int.add_le_add_left hmode state.base

/-- So does a part, when nothing is left to decide. -/
theorem State.append_le (part : Part) (hmode : credit mode = 0) :
    (state.append part mode).potential ≤ state.base + 1 := by
  have hpart := size_part_le part
  rw [potential_append, hmode]
  omega

/-- So does the end of a word. -/
theorem State.endWord_le (hmode : credit mode ≤ 0) :
    (state.endWord mode).potential ≤ state.base + 1 := by
  have hend := state.potential_endWord_le mode
  omega

/-- The potential where nothing is left to decide. -/
theorem State.potential_into_of_credit (hmode : credit mode = 0) :
    (state.into mode).potential = state.base := by
  rw [potential_into, hmode, Int.add_zero]

/-- The same at the beginning of a word. -/
theorem State.potential_begin_of_credit (hmode : credit mode = 0) :
    (state.begin mode).potential = state.base := by
  rw [potential_begin, hmode, Int.add_zero]

end Base

/-! ## No byte counts more than one -/

section Step

variable (state : State) (byte : UInt8)

/-- One of two states is reached. -/
theorem potential_ite_le {test : Prop} [Decidable test] {yes no : State} {bound : ℤ}
    (hyes : yes.potential ≤ bound) (hno : no.potential ≤ bound) :
    (if test then yes else no).potential ≤ bound := by
  split
  · exact hyes
  · exact hno

/-- Outside of quotes. -/
theorem plainStep_le : (plainStep state byte).potential ≤ state.base + 1 := by
  have hword := state.base_endWord_le .normal
  unfold plainStep
  refine potential_ite_le ?newline (potential_ite_le ?blank (potential_ite_le ?comment
    (potential_ite_le ?backslash (potential_ite_le ?single (potential_ite_le ?double
    (potential_ite_le ?backquote (potential_ite_le ?dollar (potential_ite_le ?angle
    (potential_ite_le ?control ?plain)))))))))
  case newline =>
    rw [State.potential_push, weight_newline]
    simp only [credit]
    omega
  case blank => exact state.endWord_le Int.le_rfl
  case control => exact state.endWord_le (by simp [credit, Pending.credit])
  case comment | backslash | dollar | angle =>
    exact state.into_le (by simp [credit, Pending.credit])
  case backquote => exact state.begin_le (by simp [credit])
  case single | double | plain => exact state.append_le _ rfl

/-- Inside of double quotes. -/
theorem doubleStep_le : (doubleStep state byte).potential ≤ state.base + 1 := by
  unfold doubleStep
  refine potential_ite_le ?quote (potential_ite_le ?backslash (potential_ite_le ?backquote
    (potential_ite_le ?dollar ?literal)))
  case backslash | backquote | dollar => exact state.into_le (by simp [credit, Pending.credit])
  case quote | literal => exact state.append_le _ rfl

/-- Around a substitution. -/
theorem outerStep_le (quoted : Bool) :
    (outerStep quoted state byte).potential ≤ state.base + 1 :=
  potential_ite_le (doubleStep_le state byte) (plainStep_le state byte)

/-- After a backslash, which may stand for itself inside of double quotes. -/
theorem backslashStep_le (quoted : Bool) :
    (backslashStep quoted state byte).potential ≤ state.base + 2 := by
  have hinto := state.into_le (Int.le_trans (Int.le_of_eq (credit_outer quoted)) (by decide))
  unfold backslashStep
  refine potential_ite_le (by omega) (potential_ite_le ?quotes ?literal)
  case quotes =>
    rw [State.potential_append, State.base_append, credit_outer, size_mark, size_literal]
    omega
  case literal =>
    rw [State.potential_append, State.base_append, credit_outer, size_literal, size_literal]
    omega

/-- After a backslash outside of quotes, which only quotes. -/
theorem backslashStep_false_le : (backslashStep false state byte).potential ≤ state.base + 1 := by
  unfold backslashStep
  refine potential_ite_le (state.into_le (by simp [outer, credit])) ?_
  rw [if_pos (Or.inl rfl), State.potential_append, State.base_append, credit_outer, size_mark,
    size_literal]
  omega

/-- After an operator. -/
theorem operatorStep_le (text : ByteString) :
    (operatorStep text state byte).potential ≤ state.base := by
  have hplain := plainStep_le (state.push (.operator text) .normal) byte
  rw [State.base_push, weight] at hplain
  unfold operatorStep
  refine potential_ite_le ?_ (by omega)
  rw [State.potential_into]
  simp only [credit, Pending.credit]
  omega

/-- After a dollar sign, which was counted. -/
theorem dollarStep_le (quoted : Bool) :
    (dollarStep quoted state byte).potential ≤ state.base + 2 := by
  have hbegin {mode : Mode} (hmode : credit mode = 0) :
      (state.begin mode).potential ≤ state.base + 2 := by
    rw [State.potential_begin_of_credit _ hmode]
    omega
  have hsubstitution {mode : Mode} (hmode : credit mode = 0) :
      (state.append (.substitution [dollar, byte]) mode).potential ≤ state.base + 2 := by
    have hle := state.append_le (.substitution [dollar, byte]) hmode
    omega
  unfold dollarStep
  refine potential_ite_le (hbegin rfl) (potential_ite_le (hsubstitution (credit_outer quoted))
    (potential_ite_le (hbegin rfl) (potential_ite_le (hbegin rfl)
    (potential_ite_le (hsubstitution rfl) ?_))))
  have houter := outerStep_le (state.append (.literal dollar quoted) (outer quoted)) byte quoted
  rw [State.base_append, size_literal] at houter
  omega

/-- The end of something pending decides what it counts. -/
theorem Pending.base_settle_le (what : Pending) :
    (what.settle state).base ≤ state.base + what.credit := by
  have hdescriptor := state.base_endDescriptor_le .normal
  cases what <;>
    simp only [settle, Pending.credit, State.base_push, State.base_append, weight, size_literal,
      size_substitution] <;>
    omega

/-- After something pending. -/
theorem Pending.step_le (what : Pending) :
    (what.step state byte).potential ≤ state.base + what.credit + 1 := by
  cases what with
  | operator text =>
    have hle := operatorStep_le state byte text
    simp only [Pending.step, Pending.credit]
    omega
  | angle first =>
    have hdescriptor := state.base_endDescriptor_le .normal
    have hoperator := operatorStep_le (state.endDescriptor .normal) byte [first]
    have hbegin := @State.begin_le state (.nested false [first, byte]) (by simp [Shell.credit])
    simp only [Pending.step, Pending.credit]
    exact potential_ite_le (by omega) (by omega)
  | dollar quoted =>
    have hle := dollarStep_le state byte quoted
    simp only [Pending.step, Pending.credit]
    omega
  | name quoted text =>
    have houter := outerStep_le (state.append (.substitution text) (outer quoted)) byte quoted
    rw [State.base_append, size_substitution] at houter
    have hinto := @State.into_le state (.pending (.name quoted (text ++ [byte])))
      (by simp [Shell.credit, Pending.credit])
    simp only [Pending.step, Pending.credit]
    exact potential_ite_le (by omega) (by omega)

/-- What counts one in a mode without debt counts one. -/
theorem le_of_base_le {next : State} (hmode : 0 ≤ credit state.mode)
    (h : next.potential ≤ state.base + 1) : next.potential ≤ state.potential + 1 := by
  have hstate : state.potential = state.base + credit state.mode := rfl
  omega

/-- No byte raises the potential by more than one. -/
theorem step_le (inner : Substitutions) :
    (step inner state byte).potential ≤ state.potential + 1 := by
  have hstate : state.potential = state.base + credit state.mode := rfl
  unfold step
  cases hmode : state.mode with
  | normal => exact le_of_base_le state (by simp [hmode, credit]) (plainStep_le state byte)
  | pending what =>
    have hle := what.step_le state byte
    rw [hmode] at hstate
    simp only [credit] at hstate
    refine potential_ite_le ?_ (by omega)
    rw [State.potential_into, hstate]
    simp only [credit]
    omega
  | held what =>
    have hsettle := what.base_settle_le state
    have hle := backslashStep_le (what.settle state) byte what.quoted
    rw [hmode] at hstate
    simp only [credit] at hstate
    refine potential_ite_le ?_ (by omega)
    rw [State.potential_into, hstate]
    simp only [credit]
    omega
  | comment =>
    refine potential_ite_le (le_of_base_le state (by simp [hmode, credit]) ?_) (by omega)
    rw [State.potential_push, weight_newline]
    simp only [credit]
    omega
  | backslash quoted =>
    have hle := backslashStep_le state byte quoted
    rw [hmode] at hstate
    simp only [credit] at hstate
    change (backslashStep quoted state byte).potential ≤ _
    omega
  | single =>
    exact le_of_base_le state (by simp [hmode, credit])
      (potential_ite_le (state.append_le _ rfl) (state.append_le _ rfl))
  | double => exact le_of_base_le state (by simp [hmode, credit]) (doubleStep_le state byte)
  | ansi text escaped =>
    exact le_of_base_le state (by simp [hmode, credit])
      (potential_ite_le (state.append_le _ rfl) (state.into_le (by simp [credit])))
  | backquote quoted text escaped =>
    exact le_of_base_le state (by simp [hmode, credit])
      (potential_ite_le (state.append_le _ (credit_outer quoted))
        (state.into_le (by simp [credit])))
  | nested quoted text =>
    exact le_of_base_le state (by simp [hmode, credit])
      (potential_ite_le (state.append_le _ (credit_outer quoted))
        (state.into_le (by simp [credit])))

/-- A backslash outside of quotes was read last. -/
def Mode.quotes : Mode → Bool
  | .held what => ¬ what.quoted
  | .backslash quoted => ¬ quoted
  | _ => false

/-- A byte after such a backslash was counted with it. -/
theorem step_quotes_le (inner : Substitutions) (hmode : state.mode.quotes) :
    (step inner state byte).potential ≤ state.potential := by
  have hstate : state.potential = state.base + credit state.mode := rfl
  unfold step
  cases h : state.mode with
  | held what =>
    simp only [h, Mode.quotes, decide_eq_true_eq, Bool.not_eq_true] at hmode
    have hsettle := what.base_settle_le state
    have hle := backslashStep_false_le (what.settle state) byte
    rw [h] at hstate
    simp only [credit] at hstate
    refine potential_ite_le ?_ (by rw [hmode]; omega)
    rw [State.potential_into, hstate]
    simp only [credit]
    omega
  | backslash quoted =>
    simp only [h, Mode.quotes, decide_eq_true_eq, Bool.not_eq_true] at hmode
    subst hmode
    have hle := backslashStep_false_le state byte
    rw [h] at hstate
    simp only [credit] at hstate
    change (backslashStep false state byte).potential ≤ _
    omega
  | normal | pending | comment | single | double | ansi | backquote | nested =>
    rw [h] at hmode
    exact absurd hmode Bool.false_ne_true

/-- A text raises the potential by its length at most. -/
theorem run_le (inner : Substitutions) (text : ByteString) :
    (run inner state text).potential ≤ state.potential + text.length := by
  induction text generalizing state with
  | nil => simp [run]
  | cons byte text ih =>
    have hstep := step_le state byte inner
    have hrest := ih (step inner state byte)
    rw [run, List.foldl_cons, ← run, List.length_cons]
    omega

end Step

/-! ## The end of a line -/

/-- What the tokens count at the end of a word. -/
theorem weights_endWord (state : State) : weights (state.endWord .normal).tokens =
    state.base - if state.word = none then 1 else 0 := by
  have hend := state.base_endWord .normal
  have hbase : (state.endWord .normal).base = weights (state.endWord .normal).tokens + 0 + 1 := rfl
  split_ifs at hend ⊢
  · omega
  · omega

/-- It is no more than they did. -/
theorem weights_endWord_le (state : State) :
    weights (state.endWord .normal).tokens ≤ state.base := by
  rw [weights_endWord]
  split <;> omega

/-- A backslash at the end counts one at most. -/
theorem weights_endLine_le (kept : Bool) (state : State) :
    weights (state.endLine kept) ≤ state.base + 1 := by
  refine Int.le_trans (weights_endWord_le _) ?_
  split
  · rw [State.base_append, size_literal]
    exact Int.le_refl _
  · omega

/-- One that is kept counts one. -/
theorem weights_endLine_true (state : State) : weights (state.endLine true) = state.base + 1 := by
  rw [State.endLine, if_pos rfl, weights_endWord, if_neg nofun, State.base_append, size_literal]
  omega

/-- The tokens at the end count no more than the state. -/
theorem weights_finish_le {kept : Bool} {state : State} {tokens : List Token}
    (hfinish : state.finish kept = some tokens) : weights tokens ≤ state.potential := by
  have hpotential : state.potential = state.base + credit state.mode := rfl
  rw [State.finish] at hfinish
  cases hmode : state.mode with
  | normal | comment =>
    rw [hmode] at hfinish hpotential
    cases hfinish
    rw [hpotential]
    exact Int.le_trans (weights_endWord_le _) (Int.le_of_eq (Int.add_zero _).symm)
  | pending what =>
    have hsettle := what.base_settle_le state
    rw [hmode] at hfinish hpotential
    dsimp only at hfinish
    split at hfinish
    · exact nomatch hfinish
    · cases hfinish
      rw [hpotential]
      exact Int.le_trans (weights_endWord_le _) hsettle
  | held what =>
    have hsettle := what.base_settle_le state
    rw [hmode] at hfinish hpotential
    dsimp only at hfinish
    split at hfinish
    · exact nomatch hfinish
    · cases hfinish
      have hline := weights_endLine_le kept (what.settle state)
      simp only [credit] at hpotential
      omega
  | backslash quoted =>
    rw [hmode] at hfinish hpotential
    cases quoted with
    | true => exact nomatch hfinish
    | false =>
      cases hfinish
      rw [hpotential]
      exact weights_endLine_le kept state
  | single | double | ansi | backquote | nested =>
    rw [hmode] at hfinish
    exact nomatch hfinish

/-- A space after a backslash at the end counts no more than the tokens. -/
theorem step_quotes_finish_le (inner : Substitutions) {state : State} {tokens : List Token}
    (hmode : state.mode.quotes) (hfinish : state.finish true = some tokens) :
    (step inner state space).potential ≤ weights tokens := by
  have hspace : space ≠ newline := by decide
  rw [State.finish] at hfinish
  rw [step]
  cases h : state.mode with
  | held what =>
    simp only [h, Mode.quotes, decide_eq_true_eq, Bool.not_eq_true] at hmode
    rw [h] at hfinish
    simp only [hmode, Bool.false_eq_true, if_false, Option.some.injEq] at hfinish
    dsimp only
    rw [if_neg hspace, hmode, ← hfinish, weights_endLine_true]
    exact backslashStep_false_le _ space
  | backslash quoted =>
    simp only [h, Mode.quotes, decide_eq_true_eq, Bool.not_eq_true] at hmode
    subst hmode
    rw [h] at hfinish
    cases hfinish
    rw [weights_endLine_true]
    exact backslashStep_false_le state space
  | normal | pending | comment | single | double | ansi | backquote | nested =>
    rw [h] at hmode
    exact absurd hmode Bool.false_ne_true

end Shell
