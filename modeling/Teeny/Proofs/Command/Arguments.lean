import Teeny.Command.Options

/-!
# What arguments say

`Reading` says how arguments are read, one rule for each form that an argument can have: which
options get which texts, in order, and which input files are left. There is at most one way to read
arguments (`Reading.unique`).

Setting options one after the other leaves each of them with the last text it got, or as it was
(`setAll_eq_ok_iff`). Together the two say when arguments are accepted and with what values
(`parse_eq_ok_iff`).
-/

namespace Teeny.Command

/-! ## Spelling of options -/

namespace Flag

theorem exists_title (flag : Flag) :
    ∃ first rest, flag.title = first :: rest ∧ first ≠ 45 ∧ first ≠ 61 ∧
      ∀ b ∈ rest, decide (b ≠ 61) = true := by
  cases flag <;> exact ⟨_, _, rfl, by decide, by decide, List.all_eq_true.1 rfl⟩

theorem ofTitle?_eq_some_iff {flag : Flag} {name : Bytes} :
    ofTitle? name = some flag ↔ name = flag.title := by
  constructor
  · intro h
    have htitle := List.find?_some (p := fun f : Flag => f.title = name) h
    exact (of_decide_eq_true htitle).symm
  · rintro rfl
    cases flag <;> decide

theorem title_inj {flag flag' : Flag} (h : flag.title = flag'.title) : flag = flag' :=
  Option.some.inj ((ofTitle?_eq_some_iff.2 rfl).symm.trans (ofTitle?_eq_some_iff.2 h))

end Flag

/-- A value as it is attached to the name of an option. -/
def attached : Option Bytes → Bytes
  | none => []
  | some value => bytes "=" ++ value

/-- Whether an argument is an option, with what value attached to it. -/
def Flag.Spells (flag : Flag) (value : Option Bytes) (argument : Bytes) : Prop :=
  ∃ dashes, (dashes = bytes "-" ∨ dashes = bytes "--") ∧
    argument = dashes ++ (flag.title ++ attached value)

/-- The name and the value of an option make up its text. -/
theorem Given.append_ofText (text : Bytes) :
    (ofText text).name ++ attached (ofText text).value = text := by
  unfold ofText
  dsimp only
  split
  next => exact List.append_nil text
  next b value heq =>
    have hb : b = 61 := by
      have hhead := List.head?_dropWhile_not (fun b : UInt8 => decide (b ≠ 61)) text.tail
      rw [heq] at hhead
      simpa using hhead
    rw [hb] at heq
    have htail : text.tail.takeWhile (fun b => decide (b ≠ 61)) ++ 61 :: value = text.tail := by
      rw [← heq, List.takeWhile_append_dropWhile]
    cases text with
    | nil => simp at htail
    | cons first rest => exact congrArg (first :: ·) htail

theorem Given.ofText_title (flag : Flag) (value : Option Bytes) :
    ofText (flag.title ++ attached value) = ⟨flag.title, value⟩ := by
  obtain ⟨first, rest, htitle, -, -, hrest⟩ := flag.exists_title
  have hdrop : ((first :: rest) ++ attached value).tail.dropWhile (fun b => decide (b ≠ 61)) =
      attached value := by
    show (rest ++ attached value).dropWhile _ = _
    rw [List.dropWhile_append_of_pos hrest]
    cases value <;> rfl
  have htake : ((first :: rest) ++ attached value).tail.takeWhile (fun b => decide (b ≠ 61)) =
      rest := by
    show (rest ++ attached value).takeWhile _ = _
    rw [List.takeWhile_append_of_pos hrest]
    cases value <;> exact List.append_nil rest
  rw [htitle, ofText, hdrop, htake]
  cases value with
  | none => exact congrArg (Given.mk · none) (List.append_nil _)
  | some value => rfl

namespace Argument

variable {argument : Bytes} {flag : Flag} {value : Option Bytes}

theorem ofName_eq_option_iff {name : Bytes} {given : Given} :
    ofName name = .option given ↔
      name.head? ≠ none ∧ name.head? ≠ some 45 ∧ name.head? ≠ some 61 ∧
        Given.ofText name = given := by
  unfold ofName
  split <;> simp_all

theorem ofText_eq_option_iff {given : Given} :
    ofText argument = .option given ↔
      ∃ dashes name, (dashes = bytes "-" ∨ dashes = bytes "--") ∧ argument = dashes ++ name ∧
        ofName name = .option given := by
  constructor
  · intro h
    unfold ofText at h
    split at h
    next => cases h
    next name _ => exact ⟨_, name, .inr rfl, rfl, h⟩
    next b name _ _ => exact ⟨_, b :: name, .inl rfl, rfl, h⟩
    next => cases h
  · rintro ⟨dashes, name, hdashes, rfl, h⟩
    obtain ⟨hnone, hdash, -⟩ := ofName_eq_option_iff.1 h
    cases name with
    | nil => exact absurd rfl hnone
    | cons b name =>
      have hb : b ≠ 45 := fun heq => hdash (congrArg some heq)
      rcases hdashes with rfl | rfl
      · show ofText (45 :: b :: name) = _
        unfold ofText
        split <;> simp_all
      · exact h

theorem ofText_of_spells (h : flag.Spells value argument) :
    ofText argument = .option ⟨flag.title, value⟩ := by
  obtain ⟨first, rest, htitle, hdash, hequals, -⟩ := flag.exists_title
  obtain ⟨dashes, hdashes, rfl⟩ := h
  refine ofText_eq_option_iff.2 ⟨dashes, _, hdashes, rfl, ofName_eq_option_iff.2 ?_⟩
  rw [Given.ofText_title, htitle]
  simp [hdash, hequals]

theorem spells_of_ofText {given : Given} (h : ofText argument = .option given)
    (hflag : given.name = flag.title) : flag.Spells given.value argument := by
  obtain ⟨dashes, name, hdashes, rfl, hname⟩ := ofText_eq_option_iff.1 h
  obtain ⟨-, -, -, rfl⟩ := ofName_eq_option_iff.1 hname
  refine ⟨dashes, hdashes, ?_⟩
  rw [← hflag, Given.append_ofText]

theorem ofName_ne (name : Bytes) : ofName name ≠ .operand ∧ ofName name ≠ .terminator := by
  unfold ofName
  split <;> simp

theorem ofText_eq_terminator_iff : ofText argument = .terminator ↔ argument = bytes "--" := by
  constructor
  · intro h
    unfold ofText at h
    split at h
    next => rfl
    next name _ => exact absurd h (ofName_ne name).2
    next b name _ _ => exact absurd h (ofName_ne (b :: name)).2
    next => cases h
  · rintro rfl
    rfl

theorem ofText_eq_operand_iff :
    ofText argument = .operand ↔ argument.head? ≠ some 45 ∨ argument = bytes "-" := by
  constructor
  · intro h
    unfold ofText at h
    split at h
    next => cases h
    next name _ => exact absurd h (ofName_ne name).1
    next b name _ _ => exact absurd h (ofName_ne (b :: name)).1
    next hlong =>
      rcases argument with _ | ⟨b, _ | ⟨c, rest⟩⟩
      · simp
      · by_cases hb : b = 45
        · exact Or.inr (congrArg (fun b => [b]) hb)
        · exact Or.inl (by simpa using hb)
      · refine Or.inl fun hb => ?_
        cases hb
        exact hlong c rest rfl
  · intro h
    have hfirst : ∀ b rest, argument ≠ 45 :: b :: rest := by
      rintro b rest rfl
      rcases h with h | h
      · exact h rfl
      · exact List.cons_ne_nil b rest (List.cons.inj h).2
    unfold ofText
    split
    next => exact absurd rfl (hfirst _ _)
    next => exact absurd rfl (hfirst _ _)
    next => exact absurd rfl (hfirst _ _)
    next => rfl

end Argument

/-! ## Reading arguments -/

/-- The text that an option gets, and the arguments that are left. The text is attached to the
option, or it is the next argument; a switch without one is on. -/
inductive Flag.Takes (flag : Flag) : Option Bytes → List Bytes → Bytes → List Bytes → Prop
  | attached (text : Bytes) (arguments : List Bytes) :
      Takes flag (some text) arguments text arguments
  | switch (h : flag.isSwitch = true) (arguments : List Bytes) :
      Takes flag none arguments (bytes "true") arguments
  | separate (h : flag.isSwitch = false) (text : Bytes) (arguments : List Bytes) :
      Takes flag none (text :: arguments) text arguments

/-- How arguments are read: the options with their texts, and the input files. -/
inductive Reading : List Bytes → List (Flag × Bytes) → List Bytes → Prop
  | none : Reading [] [] []
  /-- The first argument without a dash, or of a dash alone, is an input file. -/
  | operand {argument : Bytes} (files : List Bytes)
      (h : argument.head? ≠ some 45 ∨ argument = bytes "-") :
      Reading (argument :: files) [] (argument :: files)
  | terminator {argument : Bytes} (files : List Bytes) (h : argument = bytes "--") :
      Reading (argument :: files) [] files
  | option {flag : Flag} {value : Option Bytes} {argument text : Bytes}
      {arguments rest files : List Bytes} {settings : List (Flag × Bytes)}
      (h : flag.Spells value argument) (htakes : flag.Takes value arguments text rest)
      (next : Reading rest settings files) :
      Reading (argument :: arguments) ((flag, text) :: settings) files

variable {flag flag' : Flag} {value value' : Option Bytes} {text text' : Bytes}
  {arguments rest rest' files files' : List Bytes} {settings settings' : List (Flag × Bytes)}
  {o o' : Options}

theorem Flag.Spells.unique {argument : Bytes} (h : flag.Spells value argument)
    (h' : flag'.Spells value' argument) : flag = flag' ∧ value = value' := by
  have heq := (Argument.ofText_of_spells h).symm.trans (Argument.ofText_of_spells h')
  obtain ⟨htitle, hvalue⟩ := Given.mk.inj (Argument.option.inj heq)
  exact ⟨Flag.title_inj htitle, hvalue⟩

theorem Flag.Takes.unique (h : flag.Takes value arguments text rest)
    (h' : flag.Takes value arguments text' rest') : text = text' ∧ rest = rest' := by
  cases h <;> cases h' <;> simp_all

/-- Arguments can be read in one way only. -/
theorem Reading.unique (h : Reading arguments settings files)
    (h' : Reading arguments settings' files') : settings = settings' ∧ files = files' := by
  -- each rule says what the first argument is, so no two of them can be used
  induction h generalizing settings' files' with
  | none =>
    cases h'
    exact ⟨rfl, rfl⟩
  | operand files h =>
    have htext := Argument.ofText_eq_operand_iff.2 h
    cases h' with
    | operand => exact ⟨rfl, rfl⟩
    | terminator _ h' =>
      rw [Argument.ofText_eq_terminator_iff.2 h'] at htext
      cases htext
    | option h' =>
      rw [Argument.ofText_of_spells h'] at htext
      cases htext
  | terminator files h =>
    have htext := Argument.ofText_eq_terminator_iff.2 h
    cases h' with
    | operand _ h' =>
      rw [Argument.ofText_eq_operand_iff.2 h'] at htext
      cases htext
    | terminator => exact ⟨rfl, rfl⟩
    | option h' =>
      rw [Argument.ofText_of_spells h'] at htext
      cases htext
  | option h htakes next ih =>
    have htext := Argument.ofText_of_spells h
    cases h' with
    | operand _ h' =>
      rw [Argument.ofText_eq_operand_iff.2 h'] at htext
      cases htext
    | terminator _ h' =>
      rw [Argument.ofText_eq_terminator_iff.2 h'] at htext
      cases htext
    | option h' htakes' next' =>
      obtain ⟨rfl, rfl⟩ := h.unique h'
      obtain ⟨rfl, rfl⟩ := htakes.unique htakes'
      obtain ⟨rfl, rfl⟩ := ih next'
      exact ⟨rfl, rfl⟩

/-- Sets options to what texts stand for, one after the other. -/
def Options.setAll (o : Options) : List (Flag × Bytes) → Except UsageError Options
  | [] => .ok o
  | (flag, text) :: settings =>
    match o.set flag text with
    | .ok o => o.setAll settings
    | .error e => .error e

theorem parse_of_reading (h : Reading arguments settings files) (o : Options) :
    parse o arguments = (o.setAll settings).map (·, files) := by
  induction h generalizing o with
  | none => rfl
  | operand files h =>
    unfold parse
    rw [Argument.ofText_eq_operand_iff.2 h]
    rfl
  | terminator files h =>
    unfold parse
    rw [Argument.ofText_eq_terminator_iff.2 h]
    rfl
  | @option flag value _ text _ _ _ settings h htakes next ih =>
    have hflag : (⟨flag.title, value⟩ : Given).flag = .ok flag := by
      rw [Given.flag, Flag.ofTitle?_eq_some_iff.2 rfl]
    unfold parse Options.setAll
    rw [Argument.ofText_of_spells h]
    dsimp only
    rw [hflag]
    cases htakes with
    | attached =>
      dsimp only
      cases o.set flag text with
      | error e => rfl
      | ok o => exact ih o
    | switch hswitch =>
      dsimp only
      rw [if_pos hswitch]
      cases o.set flag (bytes "true") with
      | error e => rfl
      | ok o => exact ih o
    | separate hvalue =>
      dsimp only
      rw [if_neg (by simp [hvalue])]
      cases o.set flag text with
      | error e => rfl
      | ok o => exact ih o

theorem spells_of_flag {given : Given} {argument : Bytes}
    (htext : Argument.ofText argument = .option given) (hflag : given.flag = .ok flag) :
    flag.Spells given.value argument := by
  refine Argument.spells_of_ofText htext (Flag.ofTitle?_eq_some_iff.1 ?_)
  unfold Given.flag at hflag
  split at hflag
  next heq =>
    cases hflag
    exact heq
  next => cases hflag

theorem exists_reading (h : parse o arguments = .ok (o', files)) :
    ∃ settings, Reading arguments settings files := by
  fun_induction parse o arguments with
  | case1 =>
    cases h
    exact ⟨_, .none⟩
  | case2 o argument arguments htext =>
    cases h
    exact ⟨_, .operand _ (Argument.ofText_eq_operand_iff.1 htext)⟩
  | case3 o argument arguments htext =>
    cases h
    exact ⟨_, .terminator _ (Argument.ofText_eq_terminator_iff.1 htext)⟩
  | case7 _ _ _ _ htext _ hflag _ hvalue _ _ ih =>
    obtain ⟨settings, hnext⟩ := ih h
    have hspells := spells_of_flag htext hflag
    rw [hvalue] at hspells
    exact ⟨_, .option hspells (.attached _ _) hnext⟩
  | case9 _ _ _ _ htext _ hflag hvalue hswitch _ _ ih =>
    obtain ⟨settings, hnext⟩ := ih h
    have hspells := spells_of_flag htext hflag
    rw [hvalue] at hspells
    exact ⟨_, .option hspells (.switch hswitch _) hnext⟩
  | case12 _ _ _ htext _ hflag hvalue hswitch _ _ _ _ ih =>
    obtain ⟨settings, hnext⟩ := ih h
    have hspells := spells_of_flag htext hflag
    rw [hvalue] at hspells
    exact ⟨_, .option hspells (.separate (Bool.eq_false_iff.2 hswitch) _ _) hnext⟩
  -- all other ways to go on end in a refusal
  | _ => cases h

/-! ## Values of options -/

/-- The value of an option. -/
inductive Value where
  | text (t : Bytes)
  | number (n : Int)
  | switch (b : Bool)

/-- What a text says as the value of an option. -/
def Flag.value? : Flag → Bytes → Option Value
  | .output, text | .tokenFormat, text => some (.text text)
  | .maxDepth, text => (Integer.parse text).toOption.map .number
  | .emitTokens, text | .trace, text | .version, text => (switch? text).map .switch

/-- The value of each option. -/
def Options.get (o : Options) : Flag → Value
  | .output => .text o.output
  | .emitTokens => .switch o.emitTokens
  | .tokenFormat => .text o.tokenFormat
  | .maxDepth => .number o.maxDepth
  | .trace => .switch o.trace
  | .version => .switch o.version

theorem Options.eq_of_get (h : ∀ flag, o.get flag = o'.get flag) : o = o' := by
  have houtput := Value.text.inj (h .output)
  have hformat := Value.text.inj (h .tokenFormat)
  have hdepth := Value.number.inj (h .maxDepth)
  have htokens := Value.switch.inj (h .emitTokens)
  have htrace := Value.switch.inj (h .trace)
  have hversion := Value.switch.inj (h .version)
  cases o
  cases o'
  simp_all

/-- Setting an option gives it the value that the text says, and keeps the others. -/
theorem Options.get_of_set (h : o.set flag text = .ok o') :
    flag.value? text = some (o'.get flag) ∧ ∀ other, other ≠ flag → o'.get other = o.get other := by
  cases flag with
  | output | tokenFormat =>
    cases h
    refine ⟨rfl, fun other hother => ?_⟩
    cases other <;> first | rfl | exact absurd rfl hother
  | emitTokens | trace | version =>
    unfold set setSwitch at h
    dsimp only at h
    split at h
    next b hb =>
      cases h
      refine ⟨by simp [Flag.value?, hb, get], fun other hother => ?_⟩
      cases other <;> first | rfl | exact absurd rfl hother
    next => cases h
  | maxDepth =>
    unfold set at h
    dsimp only at h
    split at h
    next n hn =>
      cases h
      refine ⟨by simp [Flag.value?, hn, get, Except.toOption], fun other hother => ?_⟩
      cases other <;> first | rfl | exact absurd rfl hother
    next => cases h

theorem Options.exists_set (o : Options) (h : flag.value? text ≠ none) :
    ∃ o', o.set flag text = .ok o' := by
  cases flag with
  | output | tokenFormat => exact ⟨_, rfl⟩
  | emitTokens | trace | version =>
    cases hb : switch? text with
    | none => simp [Flag.value?, hb] at h
    | some b => simp [set, setSwitch, hb]
  | maxDepth =>
    cases hn : Integer.parse text with
    | error fault => simp [Flag.value?, hn, Except.toOption] at h
    | ok n => simp [set, hn]

/-- The last text that an option gets. -/
def lastText (settings : List (Flag × Bytes)) (flag : Flag) : Option Bytes :=
  ((settings.filter (·.1 = flag)).getLast?).map (·.2)

/-- What settings say about the value of an option: what its last text says, or else that it stays
as it is. -/
def Options.valueAfter (o : Options) (settings : List (Flag × Bytes)) (flag : Flag) :
    Option Value :=
  match lastText settings flag with
  | some text => flag.value? text
  | none => some (o.get flag)

/-- Whether settings make options what they are, from what they were at the start. -/
structure Options.IsSet (start : Options) (settings : List (Flag × Bytes)) (o : Options) :
    Prop where
  readable : ∀ s ∈ settings, s.1.value? s.2 ≠ none
  value_eq : ∀ flag, start.valueAfter settings flag = some (o.get flag)

theorem lastText_cons (setting : Flag × Bytes) (settings : List (Flag × Bytes)) (flag : Flag) :
    lastText (setting :: settings) flag =
      (lastText settings flag).or (if setting.1 = flag then some setting.2 else none) := by
  unfold lastText
  rw [List.filter_cons]
  by_cases h : setting.1 = flag
  · simp only [h, decide_true, if_true, List.getLast?_cons]
    cases (settings.filter fun s => decide (s.1 = flag)).getLast? <;> rfl
  · simp [h]

theorem Options.valueAfter_cons {next : Options} (h : o.set flag text = .ok next) (other : Flag) :
    o.valueAfter ((flag, text) :: settings) other = next.valueAfter settings other := by
  obtain ⟨hvalue, hothers⟩ := get_of_set h
  unfold valueAfter
  rw [lastText_cons]
  cases lastText settings other with
  | some last => rfl
  | none =>
    by_cases hflag : flag = other
    · subst hflag
      simpa using hvalue
    · simpa [hflag] using (hothers other (Ne.symm hflag)).symm

theorem Options.setAll_eq_ok_iff : o.setAll settings = .ok o' ↔ o.IsSet settings o' := by
  induction settings generalizing o with
  | nil =>
    constructor
    · intro h
      cases h
      exact ⟨by simp, fun _ => rfl⟩
    · intro h
      exact congrArg Except.ok (eq_of_get fun flag => Option.some.inj (h.value_eq flag))
  | cons setting settings ih =>
    obtain ⟨flag, text⟩ := setting
    constructor
    · intro h
      unfold setAll at h
      cases hset : o.set flag text with
      | error e =>
        rw [hset] at h
        cases h
      | ok next =>
        rw [hset] at h
        obtain ⟨hreadable, hvalue⟩ := ih.1 h
        refine ⟨List.forall_mem_cons.2 ⟨?_, hreadable⟩, fun other => ?_⟩
        · simp [(get_of_set hset).1]
        · rw [valueAfter_cons hset, hvalue]
    · intro h
      obtain ⟨hread, hreadable⟩ := List.forall_mem_cons.1 h.readable
      obtain ⟨next, hset⟩ := o.exists_set hread
      rw [setAll, hset]
      refine ih.2 ⟨hreadable, fun other => ?_⟩
      rw [← valueAfter_cons hset, h.value_eq]

/-- When arguments are accepted, and with what values of the options. -/
theorem parse_eq_ok_iff :
    parse o arguments = .ok (o', files) ↔
      ∃ settings, Reading arguments settings files ∧ o.IsSet settings o' := by
  constructor
  · intro h
    obtain ⟨settings, hreading⟩ := exists_reading h
    rw [parse_of_reading hreading] at h
    cases hset : o.setAll settings with
    | error e =>
      rw [hset] at h
      cases h
    | ok o'' =>
      rw [hset] at h
      cases h
      exact ⟨settings, hreading, Options.setAll_eq_ok_iff.1 hset⟩
  · rintro ⟨settings, hreading, hset⟩
    rw [parse_of_reading hreading, Options.setAll_eq_ok_iff.2 hset]
    rfl

end Teeny.Command
