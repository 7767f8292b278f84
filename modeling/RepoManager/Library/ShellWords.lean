import Mathlib.Data.List.Chain
import RepoManager.Library.ShellPotential

/-!
# Words that are appended to a command

A command is written, then a blank and a word, then a blank and another word. When does bash read
the same command with exactly these two words after it? `append_iff` gives the condition on the
three texts.

The argument counts. Two words that are read as they were written need every byte of them: no byte
can open a quote, an operator or a substitution, and what is left are plain bytes.
-/

namespace Shell

/-! ## Plain words -/

/-- A byte that may stand unquoted inside a word. -/
def isPlainByte (byte : UInt8) : Bool :=
  byte ≠ newline ∧ ¬ isBlank byte ∧ byte ≠ backslash ∧ byte ≠ singleQuote ∧ byte ≠ doubleQuote ∧
    byte ≠ backquote ∧ ¬ isAngle byte ∧ ¬ isControl byte

/-- It is no blank. -/
theorem not_isBlank {byte : UInt8} (h : isPlainByte byte) : ¬ isBlank byte := by
  rw [isPlainByte, decide_eq_true_eq] at h
  exact h.2.1

/-- A byte before which a dollar sign does not stand for itself. -/
def opensSubstitution (byte : UInt8) : Bool :=
  isNameStart byte ∨ isParameter byte ∨ isOpening byte

/-- A text that is read as one word of its own bytes. -/
structure Plain (text : ByteString) : Prop where
  ne_nil : text ≠ []
  start : text.head? ≠ some hash
  bytes : ∀ byte ∈ text, isPlainByte byte
  chain : text.IsChain fun byte next => byte = dollar → opensSubstitution next = false

/-- The conditions on a plain text as they are evaluated. -/
theorem plain_iff {text : ByteString} :
    text ≠ [] ∧ text.head? ≠ some hash ∧ text.all isPlainByte ∧
      text.IsChain (fun byte next => byte = dollar → opensSubstitution next = false) ↔
      Plain text :=
  ⟨fun h => ⟨h.1, h.2.1, List.all_eq_true.mp h.2.2.1, h.2.2.2⟩,
    fun h => ⟨h.ne_nil, h.start, List.all_eq_true.mpr h.bytes, h.chain⟩⟩

instance (text : ByteString) : Decidable (Plain text) := decidable_of_iff _ plain_iff

/-- The word of a text, when there is one. -/
def wordOf (text : ByteString) : Option Word := if text = [] then none else some (literals text)

/-- The state after a text, which may end in a dollar sign. -/
def plainState (tokens : List Token) (text : ByteString) : State :=
  if text.getLast? = some dollar then ⟨tokens, wordOf text.dropLast, .pending (.dollar false)⟩
  else ⟨tokens, wordOf text, .normal⟩

/-- The state after a text and a backslash. -/
def backslashState (tokens : List Token) (text : ByteString) : State :=
  if text.getLast? = some dollar then ⟨tokens, wordOf text.dropLast, .held (.dollar false)⟩
  else ⟨tokens, wordOf text, .backslash false⟩

@[simp] theorem size_literals (text : ByteString) : size (literals text) = text.length := by
  induction text with
  | nil => rfl
  | cons byte text ih =>
    change size ([.literal byte false] ++ literals text) = _
    rw [size_append, ih, size_literal, List.length_cons, Nat.add_comm]

@[simp] theorem getD_wordOf (text : ByteString) : (wordOf text).getD [] = literals text := by
  cases text <;> rfl

theorem literals_concat (text : ByteString) (byte : UInt8) :
    literals (text ++ [byte]) = literals text ++ [.literal byte false] := List.map_append ..

theorem wordOf_concat (text : ByteString) (byte : UInt8) :
    wordOf (text ++ [byte]) = some (literals text ++ [.literal byte false]) := by
  rw [wordOf, if_neg (by simp), literals_concat]

theorem wordOf_eq_none_iff {text : ByteString} : wordOf text = none ↔ text = [] := by
  cases text <;> simp [wordOf]

/-- A prefix of a plain text is empty or plain. -/
theorem Plain.of_concat {text : ByteString} {byte : UInt8} (h : Plain (text ++ [byte])) :
    text = [] ∨ Plain text := by
  rw [or_iff_not_imp_left]
  intro hne
  refine ⟨hne, ?_, fun other hmem => h.bytes other (List.mem_append_left _ hmem),
    (List.isChain_append.mp h.chain).1⟩
  have hstart := h.start
  rwa [List.head?_append_of_ne_nil _ hne] at hstart

/-- A plain text with one more byte. -/
theorem Plain.concat {text : ByteString} {byte : UInt8} (h : text = [] ∨ Plain text)
    (hbyte : isPlainByte byte) (hstart : text = [] → byte ≠ hash)
    (hdollar : text.getLast? = some dollar → opensSubstitution byte = false) :
    Plain (text ++ [byte]) := by
  rcases h with rfl | h
  · refine ⟨List.cons_ne_nil _ _, ?_, ?_, List.isChain_singleton _⟩
    · exact fun heq => hstart rfl (Option.some.inj heq)
    · exact fun other hmem => List.mem_singleton.mp hmem ▸ hbyte
  · refine ⟨by simp, ?_, ?_, ?_⟩
    · rw [List.head?_append_of_ne_nil _ h.ne_nil]
      exact h.start
    · intro other hmem
      rcases List.mem_append.mp hmem with hmem | hmem
      · exact h.bytes other hmem
      · exact List.mem_singleton.mp hmem ▸ hbyte
    · refine List.isChain_append.mpr ⟨h.chain, List.isChain_singleton _, ?_⟩
      rintro last hlast next hnext rfl
      rw [← Option.some.inj hnext]
      exact hdollar hlast

/-- What a plain state counts. -/
theorem potential_plainState (tokens : List Token) (text : ByteString) :
    (plainState tokens text).potential = weights tokens + text.length + 1 := by
  unfold plainState
  split
  · next hlast =>
    obtain ⟨front, rfl⟩ := List.getLast?_eq_some_iff.mp hlast
    simp only [State.potential, State.base, List.dropLast_concat, getD_wordOf, size_literals,
      credit, Pending.credit, List.length_append, List.length_singleton]
    omega
  · simp only [State.potential, State.base, getD_wordOf, size_literals, credit]
    omega

/-- A backslash counts one. -/
theorem potential_backslashState (tokens : List Token) (text : ByteString) :
    (backslashState tokens text).potential = (plainState tokens text).potential + 1 := by
  unfold backslashState plainState
  split
  · exact (Int.add_assoc _ _ _).symm
  · exact congrArg (· + 1) (Int.add_zero _).symm

/-- The backslash was read last. -/
theorem quotes_backslashState (tokens : List Token) (text : ByteString) :
    (backslashState tokens text).mode.quotes := by
  unfold backslashState
  split <;> rfl

/-- A byte after a plain text, unless it is a backslash or makes a substitution of a dollar sign. -/
theorem step_plainState (inner : Substitutions) (tokens : List Token) {text : ByteString}
    {byte : UInt8} (h : text.getLast? = some dollar → opensSubstitution byte = false ∧
      byte ≠ singleQuote ∧ byte ≠ doubleQuote ∧ byte ≠ backslash) :
    step inner (plainState tokens text) byte =
      plainStep ⟨tokens, wordOf text, .normal⟩ byte := by
  unfold plainState
  split
  · next hlast =>
    obtain ⟨hopens, hsingle, hdouble, hbackslash⟩ := h hlast
    simp only [opensSubstitution, decide_eq_false_iff_not, not_or, Bool.not_eq_true] at hopens
    obtain ⟨hname, hparameter, hopening⟩ := hopens
    obtain ⟨front, rfl⟩ := List.getLast?_eq_some_iff.mp hlast
    simp only [step, Pending.step, dollarStep, hname, hparameter, hopening, hsingle, hdouble,
      hbackslash, and_false, if_false, Bool.false_eq_true, List.dropLast_concat, outerStep, outer,
      wordOf_concat, State.append, getD_wordOf]
  · rfl

/-- A backslash after a plain text. -/
theorem step_backslash (inner : Substitutions) (tokens : List Token) (text : ByteString) :
    step inner (plainState tokens text) backslash = backslashState tokens text := by
  unfold plainState backslashState
  split <;> rfl

/-- A plain byte goes into the word. -/
theorem plainStep_plain (tokens : List Token) {text : ByteString} {byte : UInt8}
    (hbyte : isPlainByte byte) (hstart : text = [] → byte ≠ hash) :
    plainStep ⟨tokens, wordOf text, .normal⟩ byte = plainState tokens (text ++ [byte]) := by
  rw [isPlainByte, decide_eq_true_eq] at hbyte
  obtain ⟨hnewline, hblank, hbackslash, hsingle, hdouble, hbackquote, hangle, hcontrol⟩ := hbyte
  have hcomment : ¬ (byte = hash ∧ wordOf text = none) := fun h =>
    hstart (wordOf_eq_none_iff.mp h.2) h.1
  rw [plainStep, if_neg hnewline, if_neg hblank, if_neg hcomment, if_neg hbackslash,
    if_neg hsingle, if_neg hdouble, if_neg hbackquote, plainState, List.getLast?_concat]
  split
  · next hdollar => rw [if_pos (by rw [hdollar]), List.dropLast_concat, State.into]
  · next hdollar =>
    rw [if_neg fun h => hdollar (Option.some.inj h), State.append, getD_wordOf, wordOf_concat]

/-- A plain text is read byte by byte. -/
theorem step_plain (inner : Substitutions) (tokens : List Token) {text : ByteString}
    {byte : UInt8} (h : Plain (text ++ [byte])) :
    step inner (plainState tokens text) byte = plainState tokens (text ++ [byte]) := by
  have hbyte := h.bytes byte (by simp)
  have hquotes := hbyte
  rw [isPlainByte, decide_eq_true_eq] at hquotes
  rw [step_plainState inner tokens fun hlast =>
    ⟨(List.isChain_append.mp h.chain).2.2 dollar hlast byte rfl rfl, hquotes.2.2.2.1,
      hquotes.2.2.2.2.1, hquotes.2.2.1⟩]
  refine plainStep_plain tokens hbyte ?_
  rintro rfl rfl
  exact h.start rfl

/-- A blank ends the word. -/
theorem step_blank (inner : Substitutions) (tokens : List Token) (text : ByteString)
    {byte : UInt8} (hblank : isBlank byte) :
    step inner (plainState tokens text) byte =
      plainState (tokens ++ ((wordOf text).map Token.word).toList) [] := by
  have hnot (byte : UInt8) : isBlank byte → byte ≠ newline ∧ opensSubstitution byte = false ∧
      byte ≠ singleQuote ∧ byte ≠ doubleQuote ∧ byte ≠ backslash := by
    intro h
    rw [isBlank, decide_eq_true_eq] at h
    rcases h with rfl | rfl <;> decide +kernel
  obtain ⟨hnewline, hopens, hquotes⟩ := hnot byte hblank
  rw [step_plainState inner tokens fun _ => ⟨hopens, hquotes⟩, plainStep, if_neg hnewline,
    if_pos hblank]
  rfl

/-- A byte that makes a substitution of a dollar sign does not count. -/
theorem dollarStep_lt (state : State) {byte : UInt8}
    (h : ¬ (opensSubstitution byte = false ∧ byte ≠ singleQuote ∧ byte ≠ doubleQuote)) :
    (dollarStep false state byte).potential ≤ state.base := by
  have hbegin {mode : Mode} (hmode : credit mode = 0) :
      (state.begin mode).potential ≤ state.base :=
    Int.le_of_eq (state.potential_begin_of_credit hmode)
  have hsubstitution {mode : Mode} (hmode : credit mode = 0) :
      (state.append (.substitution [dollar, byte]) mode).potential ≤ state.base := by
    rw [State.potential_append, hmode, size_substitution]
    omega
  unfold dollarStep
  split_ifs with hname hparameter hopening hsingle hdouble
  · exact hbegin rfl
  · exact hsubstitution (credit_outer false)
  · exact hbegin rfl
  · exact hbegin rfl
  · exact hsubstitution rfl
  · refine absurd ⟨?_, fun heq => hsingle ⟨rfl, heq⟩, fun heq => hdouble ⟨rfl, heq⟩⟩ h
    simp [opensSubstitution, hname, hparameter, hopening]

/-- What a byte outside of quotes is when it counts one: a blank after a word, a byte of a word, or
a backslash. -/
theorem plainStep_exact (state : State) {byte : UInt8} (hline : byte ≠ newline)
    (hcount : state.base + 1 ≤ (plainStep state byte).potential) :
    (isBlank byte ∧ state.word ≠ none) ∨
      (isPlainByte byte ∧ ¬ (byte = hash ∧ state.word = none)) ∨ byte = backslash := by
  have hmark {mode : Mode} (hmode : credit mode = 0) :
      (state.append (.mark byte) mode).potential = state.base := by
    rw [State.potential_append, hmode, size_mark]
    omega
  rw [plainStep, if_neg hline] at hcount
  by_cases hblank : isBlank byte
  · refine Or.inl ⟨hblank, fun hnone => ?_⟩
    have hend := state.base_endWord .normal
    rw [if_pos hnone] at hend
    rw [if_pos hblank] at hcount
    change _ ≤ (State.endWord _ .normal).base + 0 at hcount
    omega
  rw [if_neg hblank] at hcount
  by_cases hcomment : byte = hash ∧ state.word = none
  · rw [if_pos hcomment, State.potential_into_of_credit _ rfl] at hcount
    omega
  rw [if_neg hcomment] at hcount
  by_cases hbackslash : byte = backslash
  · exact Or.inr (Or.inr hbackslash)
  rw [if_neg hbackslash] at hcount
  by_cases hsingle : byte = singleQuote
  · rw [if_pos hsingle, hmark rfl] at hcount
    omega
  rw [if_neg hsingle] at hcount
  by_cases hdouble : byte = doubleQuote
  · rw [if_pos hdouble, hmark rfl] at hcount
    omega
  rw [if_neg hdouble] at hcount
  by_cases hbackquote : byte = backquote
  · rw [if_pos hbackquote, State.potential_begin_of_credit _ rfl] at hcount
    omega
  rw [if_neg hbackquote] at hcount
  by_cases hsign : byte = dollar
  · refine Or.inr (Or.inl ⟨?_, hcomment⟩)
    rw [hsign]
    decide +kernel
  rw [if_neg hsign] at hcount
  by_cases hangle : isAngle byte
  · rw [if_pos hangle, State.potential_into_of_credit _ rfl] at hcount
    omega
  rw [if_neg hangle] at hcount
  by_cases hcontrol : isControl byte
  · have hend := state.potential_endWord_le (.pending (.operator [byte]))
    rw [if_pos hcontrol] at hcount
    simp only [credit, Pending.credit] at hend
    omega
  refine Or.inr (Or.inl ⟨?_, hcomment⟩)
  rw [isPlainByte, decide_eq_true_eq]
  exact ⟨hline, hblank, hbackslash, hsingle, hdouble, hbackquote, hangle, hcontrol⟩

/-- What a byte after a plain text is when it counts one. -/
theorem step_exact (inner : Substitutions) (tokens : List Token) {text : ByteString}
    {byte : UInt8} (htext : text = [] ∨ Plain text) (hline : byte ≠ newline)
    (hcount : (plainState tokens text).potential + 1 ≤
      (step inner (plainState tokens text) byte).potential) :
    (isBlank byte ∧ text ≠ []) ∨ Plain (text ++ [byte]) ∨ byte = backslash := by
  by_cases hbackslash : byte = backslash
  · exact Or.inr (Or.inr hbackslash)
  have hbase : (State.mk tokens (wordOf text) .normal).base =
      (plainState tokens text).potential := by
    rw [potential_plainState, State.base, getD_wordOf, size_literals]
  have hdollar : text.getLast? = some dollar → opensSubstitution byte = false ∧
      byte ≠ singleQuote ∧ byte ≠ doubleQuote := by
    intro hlast
    by_contra hopens
    have hlt := dollarStep_lt (plainState tokens text) hopens
    have hpotential : (plainState tokens text).potential = (plainState tokens text).base + 1 := by
      rw [plainState, if_pos hlast]
      rfl
    have hstep : step inner (plainState tokens text) byte =
        dollarStep false (plainState tokens text) byte := by
      rw [plainState, if_pos hlast]
      exact if_neg hbackslash
    rw [hstep] at hcount
    omega
  rw [step_plainState inner tokens fun hlast =>
    ⟨(hdollar hlast).1, (hdollar hlast).2.1, (hdollar hlast).2.2, hbackslash⟩, ← hbase] at hcount
  rcases plainStep_exact _ hline hcount with ⟨hblank, hword⟩ | ⟨hbyte, hstart⟩ | hquote
  · exact Or.inl ⟨hblank, mt wordOf_eq_none_iff.mpr hword⟩
  · refine Or.inr (Or.inl (Plain.concat htext hbyte ?_ fun hlast => (hdollar hlast).1))
    exact fun hempty hhash => hstart ⟨hhash, wordOf_eq_none_iff.mpr hempty⟩
  · exact absurd hquote hbackslash

/-- The pieces of a text between its blanks, the first one after some bytes. -/
def pieces (text : ByteString) : ByteString → List ByteString
  | [] => [text]
  | byte :: rest =>
    if isBlank byte then text :: pieces [] rest else pieces (text ++ [byte]) rest

/-- Every piece is one of a text around a blank. -/
theorem pieces_append (text front back : ByteString) {byte : UInt8} (hblank : isBlank byte) :
    pieces text (front ++ byte :: back) = pieces text front ++ pieces [] back := by
  induction front generalizing text with
  | nil =>
    change (if isBlank byte then text :: pieces [] back else _) = _
    rw [if_pos hblank]
    rfl
  | cons first front ih =>
    rw [List.cons_append, pieces, pieces]
    split
    · rw [ih, List.cons_append]
    · exact ih _

/-- There is always a piece. -/
theorem pieces_ne_nil (text rest : ByteString) : pieces text rest ≠ [] := by
  induction rest generalizing text with
  | nil => exact List.cons_ne_nil _ _
  | cons byte rest ih =>
    rw [pieces]
    split
    · exact List.cons_ne_nil _ _
    · exact ih _

/-- A text of one piece has no blank. -/
theorem pieces_singleton {text rest piece : ByteString} (h : pieces text rest = [piece]) :
    piece = text ++ rest := by
  induction rest generalizing text with
  | nil => rw [← List.singleton_inj.mp h, List.append_nil]
  | cons byte rest ih =>
    rw [pieces] at h
    split at h
    · exact absurd (List.cons.inj h).2 (pieces_ne_nil [] rest)
    · rw [ih h, List.append_assoc]
      rfl

/-- Two texts have two pieces when each has one. -/
theorem pieces_pair {first second left right : ByteString}
    (h : pieces [] first ++ pieces [] second = [left, right]) :
    pieces [] first = [left] ∧ pieces [] second = [right] := by
  obtain ⟨piece, others, hfirst⟩ := List.exists_cons_of_ne_nil (pieces_ne_nil [] first)
  rw [hfirst, List.cons_append, List.cons.injEq] at h
  obtain ⟨rfl, h⟩ := h
  rcases List.append_eq_singleton_iff.mp h with ⟨rfl, hsecond⟩ | ⟨-, hnil⟩
  · exact ⟨hfirst, hsecond⟩
  · exact absurd hnil (pieces_ne_nil [] second)

/-- The word of a text. -/
def wordToken (text : ByteString) : Token := .word (literals text)

/-- A text that counts in full is read as its pieces, which are plain; a backslash may be last. -/
theorem run_exact (inner : Substitutions) (tokens : List Token) {text rest : ByteString}
    (htext : text = [] ∨ Plain text) (hline : newline ∉ rest)
    (hcount : (plainState tokens text).potential + rest.length ≤
      (run inner (plainState tokens text) rest).potential) :
    ∃ done last, pieces text rest = done ++ [last] ∧ (∀ piece ∈ done, Plain piece) ∧
      (((last = [] ∨ Plain last) ∧
          run inner (plainState tokens text) rest =
            plainState (tokens ++ done.map wordToken) last) ∨
        ∃ front, last = front ++ [backslash] ∧ (front = [] ∨ Plain front) ∧
          run inner (plainState tokens text) rest =
            backslashState (tokens ++ done.map wordToken) front) := by
  induction rest generalizing tokens text with
  | nil => exact ⟨[], text, rfl, nofun, Or.inl ⟨htext, by rw [List.map_nil, List.append_nil]; rfl⟩⟩
  | cons byte rest ih =>
    obtain ⟨hbyte, hrest⟩ := not_or.mp (mt List.mem_cons.mpr hline)
    rw [List.length_cons] at hcount
    change _ ≤ (run inner (step inner (plainState tokens text) byte) rest).potential at hcount
    have hstep := step_le (plainState tokens text) byte inner
    have hrun := run_le (step inner (plainState tokens text) byte) inner rest
    have hexact := step_exact inner tokens htext (Ne.symm hbyte) (by omega)
    rw [run, List.foldl_cons, ← run]
    rcases hexact with ⟨hblank, hne⟩ | hplain | rfl
    · have hword : wordOf text = some (literals text) := if_neg hne
      have hnext := step_blank inner tokens text hblank
      rw [hword] at hnext
      change _ = plainState (tokens ++ [wordToken text]) [] at hnext
      rw [hnext] at hcount hstep hrun ⊢
      obtain ⟨done, last, hpieces, hdone, hlast⟩ :=
        ih (tokens ++ [wordToken text]) (Or.inl rfl) hrest (by omega)
      refine ⟨text :: done, last, ?_, ?_, ?_⟩
      · rw [pieces, if_pos hblank, hpieces, List.cons_append]
      · exact List.forall_mem_cons.mpr ⟨htext.resolve_left hne, hdone⟩
      · rw [List.append_assoc, List.singleton_append] at hlast
        exact hlast
    · have hnext := step_plain inner tokens hplain
      rw [hnext] at hcount hstep hrun ⊢
      obtain ⟨done, last, hpieces, hrest'⟩ := ih tokens (Or.inr hplain) hrest (by omega)
      refine ⟨done, last, ?_, hrest'⟩
      rw [pieces, if_neg (not_isBlank (hplain.bytes byte (by simp))), hpieces]
    · -- the byte after a backslash does not count any more
      have hbackslash := step_backslash inner tokens text
      cases rest with
      | nil =>
        refine ⟨[], text ++ [backslash], rfl, nofun, Or.inr ⟨text, rfl, htext, ?_⟩⟩
        rw [List.map_nil, List.append_nil]
        exact hbackslash
      | cons next rest =>
        exfalso
        rw [hbackslash] at hcount
        have hbefore := potential_backslashState tokens text
        have hafter := step_quotes_le _ next inner (quotes_backslashState tokens text)
        have hlater := run_le (step inner (backslashState tokens text) next) inner rest
        rw [List.length_cons] at hcount
        change _ ≤ (run inner (step inner (backslashState tokens text) next) rest).potential
          at hcount
        omega

/-- Two texts are read one after the other. -/
theorem run_append (inner : Substitutions) (state : State) (first second : ByteString) :
    run inner state (first ++ second) = run inner (run inner state first) second :=
  List.foldl_append

/-- A plain text is read as it is. -/
theorem run_plain (inner : Substitutions) (tokens : List Token) {text : ByteString}
    (h : text = [] ∨ Plain text) :
    run inner (plainState tokens []) text = plainState tokens text := by
  induction text using List.reverseRecOn with
  | nil => rfl
  | append_singleton text byte ih =>
    have hplain := h.resolve_left (by simp)
    rw [run_append, ih hplain.of_concat]
    exact step_plain inner tokens hplain

/-! ## The end of a text -/

/-- A space outside of quotes. -/
theorem plainStep_space (state : State) : plainStep state space = state.endWord .normal := rfl

/-- No operator goes on after a space. -/
theorem operatorStep_space (text : ByteString) (state : State) :
    operatorStep text state space = (state.push (.operator text) .normal).endWord .normal := by
  have hlast : ∀ operator ∈ operators, operator.getLast? ≠ some space := by decide +kernel
  rw [operatorStep, if_neg fun hmem => hlast _ hmem List.getLast?_concat, plainStep_space]

/-- A space after a text ends it, unless it is in a comment or after a backslash. -/
theorem step_space (inner : Substitutions) {kept : Bool} {state : State} {tokens : List Token}
    (hfinish : state.finish kept = some tokens) (hcomment : state.mode ≠ .comment)
    (hquotes : state.mode.quotes = false) : step inner state space = plainState tokens [] := by
  obtain ⟨before, word, mode⟩ := state
  cases mode with
  | normal =>
    cases hfinish
    rfl
  | pending what =>
    cases what with
    | operator text =>
      cases hfinish
      exact operatorStep_space text _
    | angle first =>
      cases hfinish
      exact operatorStep_space [first] _
    | dollar quoted | name quoted text =>
      cases quoted with
      | true => contradiction
      | false =>
        cases hfinish
        rfl
  | held what =>
    have hquoted : what.quoted := by simpa [Mode.quotes] using hquotes
    rw [State.finish] at hfinish
    dsimp only at hfinish
    rw [if_pos hquoted] at hfinish
    contradiction
  | backslash quoted =>
    cases quoted with
    | true => contradiction
    | false => contradiction
  | comment => exact absurd rfl hcomment
  | single | double | ansi | backquote | nested => contradiction

/-- The tokens after a plain text. -/
theorem finish_plainState (kept : Bool) (tokens : List Token) (text : ByteString) :
    (plainState tokens text).finish kept =
      some (tokens ++ ((wordOf text).map Token.word).toList) := by
  unfold plainState
  split
  · next hlast =>
    obtain ⟨front, rfl⟩ := List.getLast?_eq_some_iff.mp hlast
    rw [List.dropLast_concat, wordOf_concat, ← getD_wordOf]
    rfl
  · rfl

/-- The last word of a text that ends in a backslash, which stands for itself. -/
def backslashed (front : ByteString) : Word := literals front ++ [.literal backslash true]

/-- The tokens after a plain text and a backslash. -/
theorem finish_backslashState (kept : Bool) (tokens : List Token) (front : ByteString) :
    (backslashState tokens front).finish kept =
      if kept then some (tokens ++ [.word (backslashed front)])
      else (plainState tokens front).finish kept := by
  unfold backslashState plainState
  split
  · next hlast =>
    obtain ⟨text, rfl⟩ := List.getLast?_eq_some_iff.mp hlast
    rw [List.dropLast_concat, backslashed, literals_concat, ← getD_wordOf]
    cases kept <;> rfl
  · rw [backslashed, ← getD_wordOf]
    cases kept <;> rfl

/-! ## What a command counts -/

/-- What the targets of some redirections count, less the operators. -/
def targets : List Redirection → ℤ
  | [] => 0
  | redirection :: rest => size redirection.target + targets rest

/-- What the words and the redirections of a command count. -/
def contents (words : List Word) (redirections : List Redirection) : ℤ :=
  weights (words.map Token.word) + targets redirections

/-- Line breaks do not count. -/
theorem weights_dropWhile_newline (tokens : List Token) :
    weights (tokens.dropWhile (· = .newline)) = weights tokens := by
  induction tokens with
  | nil => rfl
  | cons token tokens ih =>
    rw [List.dropWhile_cons]
    split
    · next hline =>
      rw [decide_eq_true_eq] at hline
      rw [ih, hline, weights_cons, weight_newline, Int.zero_add]
    · rfl

/-- The words and the redirections count what the tokens do. -/
theorem weights_collect {tokens : List Token} {found : List Word × List Redirection}
    (h : collect tokens = some found) : weights tokens = contents found.1 found.2 := by
  induction tokens using collect.induct generalizing found with
  | case1 =>
    cases h
    rfl
  | case2 rest hall =>
    rw [collect, if_pos hall] at h
    cases h
    have hdrop : rest.dropWhile (· = .newline) = [] :=
      List.dropWhile_eq_nil_iff.mpr (List.all_eq_true.mp hall)
    rw [weights_cons, weight_newline, Int.zero_add, ← weights_dropWhile_newline, hdrop]
    rfl
  | case3 rest hall =>
    rw [collect, if_neg hall] at h
    exact nomatch h
  | case4 word rest ih =>
    rw [collect] at h
    obtain ⟨after, hafter, rfl⟩ := Option.map_eq_some_iff.mp h
    rw [weights_cons, ih hafter]
    simp only [contents, List.map_cons, weights_cons]
    omega
  | case5 text target rest hmem ih =>
    rw [collect, if_pos hmem] at h
    obtain ⟨after, hafter, rfl⟩ := Option.map_eq_some_iff.mp h
    rw [weights_cons, weights_cons, ih hafter]
    simp only [contents, targets, weight]
    omega
  | case6 text target rest hmem =>
    rw [collect, if_neg hmem] at h
    exact nomatch h
  | case7 word text target rest hmem ih =>
    rw [collect, if_pos hmem] at h
    obtain ⟨after, hafter, rfl⟩ := Option.map_eq_some_iff.mp h
    rw [weights_cons, weights_cons, weights_cons, ih hafter]
    simp only [contents, targets, weight]
    omega
  | case8 word text target rest hmem =>
    rw [collect, if_neg hmem] at h
    exact nomatch h
  | case9 tokens hnil hline hword hoperator hdescriptor =>
    rw [collect] at h
    · exact nomatch h
    all_goals assumption

/-- Before the last token there may be another one. -/
theorem getLast?_cons_eq_newline_iff {token : Token} (h : token ≠ .newline) (rest : List Token) :
    (token :: rest).getLast? = some .newline ↔ rest.getLast? = some .newline := by
  cases rest with
  | nil => simpa using h
  | cons next rest => rw [List.getLast?_cons_cons]

/-- Words after some tokens are collected, unless there is a line break before them. -/
theorem collect_append {tokens : List Token} {found : List Word × List Redirection}
    (h : collect tokens = some found) {words : List Word} (hwords : words ≠ []) :
    collect (tokens ++ words.map Token.word) =
      if tokens.getLast? = some .newline then none else some (found.1 ++ words, found.2) := by
  induction tokens using collect.induct generalizing found with
  | case1 =>
    cases h
    rw [List.nil_append, if_neg nofun, List.nil_append]
    clear hwords
    induction words with
    | nil => rfl
    | cons word words ih => rw [List.map_cons, collect, ih, Option.map_some]
  | case2 rest hall =>
    have hlines : ∀ token ∈ Token.newline :: rest, token = .newline :=
      List.forall_mem_cons.mpr ⟨rfl, by simpa using hall⟩
    have hlast := List.getLast?_eq_getLast_of_ne_nil (List.cons_ne_nil Token.newline rest)
    rw [hlines _ (List.getLast_mem _)] at hlast
    obtain ⟨word, others, rfl⟩ := List.exists_cons_of_ne_nil hwords
    rw [if_pos hlast, List.cons_append, collect, if_neg (by simp)]
  | case3 rest hall =>
    rw [collect, if_neg hall] at h
    exact nomatch h
  | case4 word rest ih =>
    rw [collect] at h
    obtain ⟨after, hafter, rfl⟩ := Option.map_eq_some_iff.mp h
    rw [List.cons_append, collect, ih hafter]
    simp only [getLast?_cons_eq_newline_iff, reduceCtorEq, not_false_eq_true, ne_eq]
    split <;> rfl
  | case5 text target rest hmem ih =>
    rw [collect, if_pos hmem] at h
    obtain ⟨after, hafter, rfl⟩ := Option.map_eq_some_iff.mp h
    rw [List.cons_append, List.cons_append, collect, if_pos hmem, ih hafter]
    simp only [getLast?_cons_eq_newline_iff, reduceCtorEq, not_false_eq_true, ne_eq]
    split <;> rfl
  | case6 text target rest hmem =>
    rw [collect, if_neg hmem] at h
    exact nomatch h
  | case7 word text target rest hmem ih =>
    rw [collect, if_pos hmem] at h
    obtain ⟨after, hafter, rfl⟩ := Option.map_eq_some_iff.mp h
    rw [List.cons_append, List.cons_append, List.cons_append, collect, if_pos hmem, ih hafter]
    simp only [getLast?_cons_eq_newline_iff, reduceCtorEq, not_false_eq_true, ne_eq]
    split <;> rfl
  | case8 word text target rest hmem =>
    rw [collect, if_neg hmem] at h
    exact nomatch h
  | case9 tokens hnil hline hword hoperator hdescriptor =>
    rw [collect] at h
    · exact nomatch h
    all_goals assumption

/-- What makes some tokens a simple command. -/
theorem simpleCommand_eq_some {tokens : List Token} {command : SimpleCommand}
    (h : simpleCommand tokens = some command) :
    ∃ found, (tokens.dropWhile (· = .newline)).head?.any isReserved = false ∧
      collect (tokens.dropWhile (· = .newline)) = some found ∧
      found.1.dropWhile isAssignment ≠ [] ∧
      (found.1.dropWhile isAssignment).head?.any hasOpenSubscript = false ∧
      command = ⟨found.1.takeWhile isAssignment, found.1.dropWhile isAssignment, found.2⟩ := by
  rw [simpleCommand] at h
  dsimp only at h
  split at h
  · exact nomatch h
  · next hreserved =>
    obtain ⟨found, hfound, hcommand⟩ := Option.bind_eq_some_iff.mp h
    split at hcommand
    · exact nomatch hcommand
    · next hwords =>
      obtain ⟨hwords, hopen⟩ := not_or.mp hwords
      exact ⟨found, Bool.eq_false_iff.mpr hreserved, hfound, hwords, Bool.eq_false_iff.mpr hopen,
        (Option.some.inj hcommand).symm⟩

/-- A simple command counts what its tokens do. -/
theorem weights_simpleCommand {tokens : List Token} {command : SimpleCommand}
    (h : simpleCommand tokens = some command) :
    weights tokens = contents (command.assignments ++ command.words) command.redirections := by
  obtain ⟨found, -, hfound, -, -, rfl⟩ := simpleCommand_eq_some h
  rw [← weights_dropWhile_newline, weights_collect hfound, List.takeWhile_append_dropWhile]

section Cut

variable {α : Type*} {test : α → Bool} {items : List α}

/-- More items do not change where a list is cut when it is. -/
theorem takeWhile_append_of_cut (hcut : items.dropWhile test ≠ []) (more : List α) :
    (items ++ more).takeWhile test = items.takeWhile test := by
  rw [List.takeWhile_append, if_neg]
  intro hlength
  have hall := congrArg List.length (@List.takeWhile_append_dropWhile _ test items)
  rw [List.length_append, hlength] at hall
  exact hcut (List.length_eq_zero_iff.mp (by omega))

/-- They are what follows. -/
theorem dropWhile_append_of_cut (hcut : items.dropWhile test ≠ []) (more : List α) :
    (items ++ more).dropWhile test = items.dropWhile test ++ more := by
  rw [List.dropWhile_append, if_neg (mt List.isEmpty_iff.mp hcut)]

end Cut

/-- Words after a simple command are its last words, unless there is a line break before them. -/
theorem simpleCommand_append {tokens : List Token} {command : SimpleCommand}
    (h : simpleCommand tokens = some command) {words : List Word} (hwords : words ≠ []) :
    simpleCommand (tokens ++ words.map Token.word) =
      if tokens.getLast? = some .newline then none else some (command.append words) := by
  obtain ⟨found, hreserved, hfound, hcommand, hopen, rfl⟩ := simpleCommand_eq_some h
  have hne : tokens.dropWhile (· = .newline) ≠ [] := by
    intro hnil
    rw [hnil] at hfound
    cases hfound
    exact hcommand rfl
  have hlast : (tokens.dropWhile (· = .newline)).getLast? = tokens.getLast? := by
    have hcut := @List.takeWhile_append_dropWhile _ (fun token => token = Token.newline) tokens
    rw [← congrArg List.getLast? hcut, List.getLast?_append_of_ne_nil _ hne]
  rw [simpleCommand, dropWhile_append_of_cut hne, List.head?_append_of_ne_nil _ hne, hreserved,
    if_neg nofun, collect_append hfound hwords, hlast]
  split
  · rfl
  · rw [Option.bind_some]
    dsimp only
    rw [takeWhile_append_of_cut hcommand, dropWhile_append_of_cut hcommand,
      List.head?_append_of_ne_nil _ hcommand, hopen, if_neg (by simp [hwords])]
    rfl

/-! ## The appended words -/

/-- The last word of a line, which may end in a backslash when one is kept. -/
inductive LastWord (kept : Bool) : ByteString → Word → Prop where
  | plain {text : ByteString} (h : Plain text) : LastWord kept text (literals text)
  | backslash {front : ByteString} (hkept : kept) (h : front = [] ∨ Plain front) :
    LastWord kept (front ++ [Shell.backslash]) (backslashed front)

/-- A text that counts in full after some tokens adds its pieces as words. -/
theorem finish_exact {inner : Substitutions} {kept : Bool} {before after : List Token}
    {text : ByteString} (hline : newline ∉ text)
    (hfinish : (run inner (plainState before []) text).finish kept = some after)
    (hcount : weights before + text.length + 1 ≤ weights after) :
    ∃ done last word, pieces [] text = done ++ [last] ∧ (∀ piece ∈ done, Plain piece) ∧
      LastWord kept last word ∧
      after = before ++ (done.map literals ++ [word]).map Token.word := by
  have hstart := potential_plainState before []
  have hend := weights_finish_le hfinish
  rw [List.length_nil] at hstart
  have hrun := run_le (plainState before []) inner text
  obtain ⟨done, last, hpieces, hdone, hlast⟩ :=
    run_exact inner before (Or.inl rfl) hline (by omega)
  have hwords : done.map wordToken = (done.map literals).map Token.word := by
    rw [List.map_map]
    rfl
  rcases hlast with ⟨hlast, hread⟩ | ⟨front, rfl, hfront, hread⟩
  · rw [hread, finish_plainState] at hfinish
    cases hfinish
    -- without a last word the end of the last word before it would be missing
    have hne : last ≠ [] := by
      rintro rfl
      rw [hread, potential_plainState] at hrun
      change _ ≤ weights (_ ++ []) at hcount
      rw [List.append_nil] at hcount
      simp only [List.length_nil] at hrun
      omega
    refine ⟨done, last, literals last, hpieces, hdone, .plain (hlast.resolve_left hne), ?_⟩
    rw [hwords, wordOf, if_neg hne, List.append_assoc, List.map_append]
    rfl
  · rw [hread, finish_backslashState] at hfinish
    split at hfinish
    · next hkept =>
      cases hfinish
      refine ⟨done, _, backslashed front, hpieces, hdone, .backslash hkept hfront, ?_⟩
      rw [hwords, List.append_assoc, List.map_append]
      rfl
    · -- a backslash that is gone was counted
      have hgone := weights_finish_le hfinish
      rw [hread, potential_backslashState] at hrun
      omega

/-- A last word is read as it is. -/
theorem finish_lastWord (inner : Substitutions) {kept : Bool} (tokens : List Token)
    {text : ByteString} {word : Word} (h : LastWord kept text word) :
    (run inner (plainState tokens []) text).finish kept = some (tokens ++ [.word word]) := by
  cases h with
  | plain h =>
    rw [run_plain inner tokens (Or.inr h), finish_plainState, wordOf, if_neg h.ne_nil]
    rfl
  | @backslash front hkept h =>
    rw [run_append, run_plain inner tokens h]
    change (step inner (plainState tokens front) backslash).finish kept = _
    rw [step_backslash, finish_backslashState, if_pos hkept]

/-- A text after which a space ends what was read: it ends neither in a comment, nor in a
backslash that quotes the space, nor in a line break. -/
structure Continues (inner : Substitutions) (text : ByteString) : Prop where
  comment : (run inner .init text).mode ≠ .comment
  quotes : (run inner .init text).mode.quotes = false
  newline : ∀ tokens, lex inner true text = some tokens → tokens.getLast? ≠ some .newline

/-- A text that is one word of its own bytes, which no expansion changes. -/
structure PlainWord (declares : Bool) (text : ByteString) : Prop extends Plain text where
  inert : inert declares (literals text)

/-- The conditions on such a word as they are evaluated. -/
theorem plainWord_iff_inert {declares : Bool} {text : ByteString} :
    Plain text ∧ Shell.inert declares (literals text) ↔ PlainWord declares text :=
  ⟨fun h => ⟨h.1, h.2⟩, fun h => ⟨h.toPlain, h.inert⟩⟩

instance (declares : Bool) (text : ByteString) : Decidable (PlainWord declares text) :=
  decidable_of_iff _ plainWord_iff_inert

/-- A text that is such a word at the end of a line, where a backslash may be kept. -/
inductive PlainLast (declares kept : Bool) : ByteString → Prop where
  | word {text : ByteString} (h : PlainWord declares text) : PlainLast declares kept text
  | backslash {front : ByteString} (hkept : kept) (h : front = [] ∨ Plain front)
    (hinert : inert declares (backslashed front)) :
    PlainLast declares kept (front ++ [Shell.backslash])

@[simp] theorem bytes_append (left right : Word) :
    bytes (left ++ right) = bytes left ++ bytes right := List.filterMap_append

/-- The bytes of the word of a text are the text. -/
@[simp] theorem bytes_literals (text : ByteString) : bytes (literals text) = text := by
  rw [bytes, literals, List.filterMap_map]
  exact List.filterMap_some

/-- The word of a text holds no substitution. -/
theorem all_isFixed_literals (text : ByteString) : (literals text).all Part.isFixed := by
  rw [literals, List.all_map]
  exact List.all_eq_true.mpr fun _ _ => rfl

/-- A word without substitutions denotes its bytes when no expansion changes it. -/
theorem string?_eq_some_iff {declares : Bool} {word : Word} (h : word.all Part.isFixed) :
    string? declares word = some (bytes word) ↔ inert declares word := by
  rw [string?, h]
  split
  · next hinert => exact iff_of_true rfl hinert.2
  · next hinert => exact iff_of_false nofun fun hword => hinert ⟨rfl, hword⟩

/-- The words that denote the plain text they are written as. -/
theorem plainWord_iff {declares : Bool} {text : ByteString} :
    PlainWord declares text ↔ Plain text ∧ string? declares (literals text) = some text := by
  have hiff := @string?_eq_some_iff declares _ (all_isFixed_literals text)
  rw [bytes_literals] at hiff
  rw [hiff, plainWord_iff_inert]

/-- The last words that denote the text they are written as. -/
theorem plainLast_iff {declares kept : Bool} {text : ByteString} :
    PlainLast declares kept text ↔
      ∃ word, LastWord kept text word ∧ string? declares word = some text := by
  have hiff (front : ByteString) : string? declares (backslashed front) =
      some (front ++ [backslash]) ↔ inert declares (backslashed front) := by
    have hfixed : (backslashed front).all Part.isFixed := by
      rw [backslashed, List.all_append, all_isFixed_literals]
      rfl
    have hstring := @string?_eq_some_iff declares _ hfixed
    rwa [backslashed, bytes_append, bytes_literals, ← backslashed] at hstring
  constructor
  · rintro (h | ⟨hkept, h, hinert⟩)
    · exact ⟨_, .plain h.toPlain, (plainWord_iff.mp h).2⟩
    · exact ⟨_, .backslash hkept h, (hiff _).mpr hinert⟩
  · rintro ⟨word, h | ⟨hkept, h⟩, hstring⟩
    · exact .word (plainWord_iff.mpr ⟨h, hstring⟩)
    · exact .backslash hkept h ((hiff _).mp hstring)

/-- A word has as many literal bytes as bytes. -/
theorem length_bytes (word : Word) : (bytes word).length = size word := by
  induction word with
  | nil => rfl
  | cons part word ih =>
    change (bytes ([part] ++ word)).length = size ([part] ++ word)
    rw [bytes_append, size_append, List.length_append, ih]
    cases part <;> rfl

/-- A word that denotes a string has as many bytes. -/
theorem size_of_string? {declares : Bool} {word : Word} {text : ByteString}
    (h : string? declares word = some text) : size word = text.length := by
  rw [string?] at h
  split at h
  · rw [← Option.some.inj h, length_bytes]
  · exact nomatch h

/-! ## Words without special bytes -/

section Safe

variable {text : ByteString}

/-- A text without opening brace has no braces to expand. -/
theorem hasBraces_literals (h : 0x7b ∉ text) (before : Option UInt8) (passed : ℕ) :
    hasBraces before passed (literals text) = false := by
  induction text generalizing before passed with
  | nil => rfl
  | cons byte text ih =>
    obtain ⟨hbyte, htext⟩ := not_or.mp (mt List.mem_cons.mpr h)
    cases passed with
    | succ passed => exact ih htext none passed
    | zero =>
      have hnone : opened before (.literal byte false) (literals text) = none := by
        rw [opened, if_neg]
        rintro ⟨hbrace, -⟩
        exact hbyte (Part.literal.inj hbrace).1.symm
      change hasBraces before 0 (.literal byte false :: literals text) = false
      rw [hasBraces, hnone]
      exact ih htext _ 0

/-- A text without tilde has no tilde to expand. -/
theorem hasTilde_literals (h : 0x7e ∉ text) : hasTilde (literals text) = false := by
  have hassigned (unassigned : Bool) (before : Option Part) :
      hasAssignedTilde unassigned before (literals text) = false := by
    induction text generalizing unassigned before with
    | nil => rfl
    | cons byte text ih =>
      obtain ⟨hbyte, htext⟩ := not_or.mp (mt List.mem_cons.mpr h)
      change hasAssignedTilde unassigned before (.literal byte false :: literals text) = false
      rw [hasAssignedTilde, ih htext]
      simp [Ne.symm hbyte]
  have hfirst : (literals text).head? ≠ some (.literal 0x7e false) := by
    rw [literals, List.head?_map]
    intro heq
    obtain ⟨byte, hbyte, hpart⟩ := Option.map_eq_some_iff.mp heq
    exact h ((Part.literal.inj hpart).1 ▸ List.mem_of_mem_head? hbyte)
  simp [hasTilde, hassigned, hfirst]

/-- A text without the bytes of a pattern is no pattern. -/
theorem hasGlob_literals (h : ∀ byte ∈ text, byte ∉ ascii "*?[") :
    hasGlob ((literals text).filter Part.isLiteral) = false := by
  induction text with
  | nil => rfl
  | cons byte text ih =>
    obtain ⟨hbyte, htext⟩ := List.forall_mem_cons.mp h
    change hasGlob (.literal byte false :: (literals text).filter Part.isLiteral) = false
    have hbytes : byte ∉ ascii "*?" ∧ byte ≠ 0x5b := by
      have hsplit : ascii "*?[" = ascii "*?" ++ [0x5b] := by decide +kernel
      simpa [hsplit, not_or] using hbyte
    rw [hasGlob, ih htext]
    simp [Part.isBare, hbytes]

/-- A byte that is special neither in a word nor to an expansion. -/
def isSafeByte (byte : UInt8) : Bool := isPlainByte byte ∧ byte ∉ ascii "$#\x7b~*?["

/-- A text of such bytes is passed to every command as it is. -/
theorem plainWord_of_safe (hne : text ≠ []) (hsafe : ∀ byte ∈ text, isSafeByte byte)
    (declares : Bool) : PlainWord declares text := by
  have hspecial : ∀ byte ∈ text, byte ∉ ascii "$#\x7b~*?[" := fun byte hmem =>
    (of_decide_eq_true (hsafe byte hmem)).2
  have hnot (byte : UInt8) (hbyte : byte ∈ ascii "$#\x7b~*?[") : byte ∉ text := fun hmem =>
    hspecial byte hmem hbyte
  have hplain : Plain text := by
    refine ⟨hne, ?_, fun byte hmem => (of_decide_eq_true (hsafe byte hmem)).1, ?_⟩
    · exact fun heq => hnot hash (by decide +kernel) (List.mem_of_mem_head? heq)
    · refine List.isChain_iff_forall_rel_of_append_cons_cons.mpr ?_
      rintro byte next front back htext rfl
      exact absurd (by simp [htext]) (hnot dollar (by decide +kernel))
  refine ⟨hplain, ?_⟩
  have hglob : ∀ byte ∈ text, byte ∉ ascii "*?[" := fun byte hmem hbyte =>
    hspecial byte hmem (by
      have hsub : ∀ other ∈ ascii "*?[", other ∈ ascii "$#\x7b~*?[" := by decide +kernel
      exact hsub byte hbyte)
  simp [inert, hasBraces_literals (hnot 0x7b (by decide +kernel)),
    hasTilde_literals (hnot 0x7e (by decide +kernel)), hasGlob_literals hglob]

end Safe

/-! ## Two words after a command -/

section Append

variable {inner : Substitutions} {exec first second : ByteString} {command : SimpleCommand}

/-- A text that is a simple command. -/
theorem parse_eq_some_iff {text : ByteString} :
    parse inner text = some command ↔ 0 ∉ text ∧
      ∃ tokens, lex inner true text = some tokens ∧ simpleCommand tokens = some command := by
  rw [parse]
  split
  · next hnul => exact iff_of_false nofun fun h => h.1 hnul
  · next hnul => rw [Option.bind_eq_some_iff, and_iff_right hnul]

/-- A line for which bash runs a simple command. -/
theorem commandOf_eq_some_iff {line : ByteString} :
    commandOf inner line = some command ↔ (0 ∉ line ∧ isOption line = false) ∧
      ∃ tokens, lex inner (keeps inner line) line = some tokens ∧
        simpleCommand tokens = some command := by
  rw [commandOf]
  split
  · next h => exact iff_of_false nofun fun hline => h.elim hline.1.1 (by simp [hline.1.2])
  · next h =>
    obtain ⟨hnul, hoption⟩ := not_or.mp h
    rw [Option.bind_eq_some_iff, and_iff_right ⟨hnul, Bool.eq_false_iff.mpr hoption⟩]

/-- A text that is a simple command is not empty. -/
theorem ne_nil_of_parse (hexec : parse inner exec = some command) : exec ≠ [] := by
  rintro rfl
  obtain ⟨-, tokens, hlex, hcommand⟩ := parse_eq_some_iff.mp hexec
  cases hlex
  exact nomatch hcommand

/-- Whether a backslash is kept depends on the line breaks alone. -/
theorem keepsFrom_append {more : ByteString} (hline : newline ∉ more) (state : State) (kept : Bool)
    (text : ByteString) :
    keepsFrom inner state kept (text ++ more) = keepsFrom inner state kept text := by
  induction text generalizing state kept with
  | cons byte text ih =>
    rw [List.cons_append, keepsFrom, keepsFrom]
    exact ih _ _
  | nil =>
    rw [List.nil_append, keepsFrom]
    induction more generalizing state with
    | nil => rfl
    | cons byte more ih =>
      obtain ⟨hbyte, hmore⟩ := not_or.mp (mt List.mem_cons.mpr hline)
      rw [keepsFrom, if_neg (Ne.symm hbyte)]
      exact ih hmore _

/-- The line that appends two words. -/
def appended (exec first second : ByteString) : ByteString :=
  exec ++ space :: (first ++ space :: second)

/-- The words are on the last line of the command. -/
theorem keeps_appended (hline : newline ∉ first ++ space :: second) :
    keeps inner (appended exec first second) = keeps inner exec := by
  have hspace : newline ≠ space := by decide
  exact keepsFrom_append (by simpa [hspace] using hline) .init true exec

/-- What is read of the line after the command. -/
theorem lex_appended (inner : Substitutions) (kept : Bool) (exec first second : ByteString) :
    lex inner kept (appended exec first second) =
      (run inner (step inner (run inner .init exec) space)
        (first ++ space :: second)).finish kept :=
  congrArg (State.finish kept) (run_append inner .init exec _)

/-- The words are appended to the command. -/
theorem lex_of_plain {kept : Bool} {tokens : List Token} (hlex : lex inner true exec = some tokens)
    (hcontinues : Continues inner exec) (hfirst : Plain first) {word : Word}
    (hsecond : LastWord kept second word) :
    lex inner kept (appended exec first second) =
      some (tokens ++ [literals first, word].map Token.word) := by
  have hblank : step inner (plainState tokens first) space =
      plainState (tokens ++ [wordToken first]) [] := by
    rw [step_blank inner tokens first rfl, wordOf, if_neg hfirst.ne_nil]
    rfl
  rw [lex_appended, step_space inner hlex hcontinues.comment hcontinues.quotes, run_append,
    run_plain inner tokens (Or.inr hfirst)]
  change (run inner (step inner (plainState tokens first) space) second).finish kept = _
  rw [hblank, finish_lastWord inner _ hsecond, List.append_assoc]
  rfl

/-- What two words count that denote two texts. -/
theorem weights_appended {declares : Bool} {before after : List Token}
    (hbefore : simpleCommand before = some command) {left right : Word}
    (hafter : simpleCommand after = some (command.append [left, right]))
    (hleft : string? declares left = some first) (hright : string? declares right = some second) :
    weights after = weights before + (first ++ space :: second).length + 1 := by
  rw [weights_simpleCommand hbefore, weights_simpleCommand hafter]
  simp only [contents, SimpleCommand.append, ← List.append_assoc, List.map_append, weights_append,
    List.map_cons, List.map_nil, weights_cons, weights_nil, weight, size_of_string? hleft,
    size_of_string? hright, List.length_append, List.length_cons]
  omega

/-- A text without line break in a comment stays in it. -/
theorem run_comment (inner : Substitutions) {state : State} (hmode : state.mode = .comment)
    {text : ByteString} (hline : newline ∉ text) : run inner state text = state := by
  induction text with
  | nil => rfl
  | cons byte text ih =>
    obtain ⟨hbyte, htext⟩ := not_or.mp (mt List.mem_cons.mpr hline)
    have hstep : step inner state byte = state := by
      rw [step, hmode]
      exact if_neg (Ne.symm hbyte)
    rw [run, List.foldl_cons, hstep]
    exact ih htext

/-- In a comment the end of a line has nothing to keep. -/
theorem finish_comment {state : State} (hmode : state.mode = .comment) (kept : Bool) :
    state.finish kept = state.finish true := by
  rw [State.finish, State.finish, hmode]

/-- Only so are they appended. -/
theorem of_lex_appended {declares kept : Bool} {before after : List Token}
    (hlex : lex inner true exec = some before) (hbefore : simpleCommand before = some command)
    (hline : newline ∉ first ++ space :: second) {left right : Word}
    (hfinish : lex inner kept (appended exec first second) = some after)
    (hafter : simpleCommand after = some (command.append [left, right]))
    (hleft : string? declares left = some first) (hright : string? declares right = some second) :
    Continues inner exec ∧ Plain first ∧ left = literals first ∧ LastWord kept second right := by
  have hweights := weights_appended hbefore hafter hleft hright
  rw [lex_appended] at hfinish
  have hcomment : (run inner .init exec).mode ≠ .comment := by
    intro hmode
    have hspace : newline ∉ [space] := by decide
    have hstay := run_comment inner hmode hspace
    change step inner _ space = _ at hstay
    rw [hstay, run_comment inner hmode hline, finish_comment hmode] at hfinish
    have hsame : before = after := Option.some.inj (hlex.symm.trans hfinish)
    rw [hsame] at hweights
    omega
  have hquotes : (run inner .init exec).mode.quotes = false := by
    rw [Bool.eq_false_iff]
    intro hmode
    have hspace := step_quotes_finish_le inner hmode hlex
    have hrun := run_le (step inner (run inner .init exec) space) inner (first ++ space :: second)
    have hend := weights_finish_le hfinish
    omega
  rw [step_space inner hlex hcomment hquotes] at hfinish
  obtain ⟨done, last, word, hpieces, hdone, hlast, rfl⟩ := finish_exact hline hfinish (by omega)
  rw [simpleCommand_append hbefore (by simp)] at hafter
  split at hafter
  · exact nomatch hafter
  next hnewline =>
  have hwords : done.map literals ++ [word] = [left, right] :=
    List.append_cancel_left (congrArg SimpleCommand.words (Option.some.inj hafter))
  have hwords' : done.map literals ++ [word] = [left] ++ [right] := hwords
  obtain ⟨hleft', hright'⟩ := List.append_inj' hwords' rfl
  obtain ⟨piece, rfl, rfl⟩ := List.map_eq_singleton_iff.mp hleft'
  cases hright'
  rw [pieces_append [] first second rfl] at hpieces
  obtain ⟨hfirst, hsecond⟩ := pieces_pair hpieces
  rw [pieces_singleton hsecond] at hlast
  rw [pieces_singleton hfirst] at hdone ⊢
  have hcontinues : Continues inner exec := by
    refine ⟨hcomment, hquotes, fun tokens htokens => ?_⟩
    obtain rfl := Option.some.inj (hlex.symm.trans htokens)
    exact hnewline
  exact ⟨hcontinues, hdone _ (List.mem_singleton_self _), rfl, hlast⟩

/-- The texts that can be appended to a command as its last two words. -/
structure Appends (inner : Substitutions) (exec first second : ByteString)
    (command : SimpleCommand) : Prop where
  option : isOption exec = false
  continues : Continues inner exec
  first : PlainWord command.declares first
  second : PlainLast command.declares (keeps inner exec) second

/-- A command reads two words after it as they are written exactly when it is not taken for
options, it can go on after a space, and the words are plain. -/
theorem append_iff (hexec : parse inner exec = some command)
    (hfirst : 0 ∉ first ∧ newline ∉ first) (hsecond : 0 ∉ second ∧ newline ∉ second) :
    (∃ left right, commandOf inner (appended exec first second) =
        some (command.append [left, right]) ∧
      string? command.declares left = some first ∧ string? command.declares right = some second) ↔
      Appends inner exec first second command := by
  have hline : newline ∉ first ++ space :: second := by
    have hspace : newline ≠ space := by decide
    simp [hfirst, hsecond, hspace]
  have hoption : isOption (appended exec first second) = isOption exec := by
    rw [isOption, appended, List.head?_append_of_ne_nil _ (ne_nil_of_parse hexec)]
    rfl
  obtain ⟨hnul, tokens, hlex, hcommand⟩ := parse_eq_some_iff.mp hexec
  constructor
  · rintro ⟨left, right, hrun, hleft, hright⟩
    obtain ⟨⟨-, hno⟩, after, hafter, hwords⟩ := commandOf_eq_some_iff.mp hrun
    rw [keeps_appended hline] at hafter
    obtain ⟨hcontinues, hword, rfl, hlast⟩ :=
      of_lex_appended hlex hcommand hline hafter hwords hleft hright
    exact ⟨hoption ▸ hno, hcontinues, plainWord_iff.mpr ⟨hword, hleft⟩,
      plainLast_iff.mpr ⟨right, hlast, hright⟩⟩
  · rintro ⟨hno, hcontinues, hword, hlast⟩
    obtain ⟨right, hright, hstring⟩ := plainLast_iff.mp hlast
    refine ⟨literals first, right, commandOf_eq_some_iff.mpr ⟨⟨?_, hoption.trans hno⟩,
      tokens ++ [literals first, right].map Token.word, ?_, ?_⟩,
      (plainWord_iff.mp hword).2, hstring⟩
    · have hspace : (0 : UInt8) ≠ space := by decide
      simp [appended, hnul, hfirst, hsecond, hspace]
    · rw [keeps_appended hline]
      exact lex_of_plain hlex hcontinues hword.toPlain hright
    · rw [simpleCommand_append hcommand (List.cons_ne_nil _ _),
        if_neg (hcontinues.newline tokens hlex)]

end Append

end Shell
