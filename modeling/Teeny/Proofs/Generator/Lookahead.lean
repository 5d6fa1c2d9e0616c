import Teeny.Proofs.Generator.Steps

/-!
# Scanning ahead and scanning at once

A run reads its source token by token, one ahead of the token it acts on, and a scan reads all
tokens at once. The two agree on lexical faults (`failure_agrees_with_scan`): a run meets a lexical
fault only where the scan does and then reports the same one, and it meets it unless a token before
the last one that was read is refused first. What a run does up to a refusal depends on the tokens
up to the one behind the refused token, and on nothing that follows.

What a scan reports is always a lexical fault (`kind_of_scan_fault`), and what a run reports on its
own never is, so the two cannot be confused.
-/

namespace Teeny

/-! ## Faults of a scan -/

namespace Cursor

theorem kind_of_string_error {c : Cursor} {f : Diagnostic} (h : c.string = .error f) :
    f.fault.kind = .lexical := by
  unfold string at h
  dsimp only at h
  split at h
  next =>
    cases h
    rfl
  next g rest hrest =>
    split at h
    next => cases h
    next =>
      cases h
      show g.stringFault.kind = .lexical
      unfold Glyph.stringFault
      split <;> rfl

theorem kind_of_number_error {c : Cursor} {f : Diagnostic} (h : c.number = .error f) :
    f.fault.kind = .lexical := by
  unfold number at h
  dsimp only at h
  split at h
  next =>
    split at h
    next =>
      cases h
      rfl
    next => cases h
  next => cases h

theorem kind_of_operator?_error {g : Glyph} {rest : List Glyph} {fault : Fault}
    (h : operator? g rest = .error fault) : fault.kind = .lexical := by
  unfold operator? at h
  dsimp only at h
  split at h
  case h_8 =>
    split at h
    next => cases h
    next =>
      cases h
      rfl
  case h_9 =>
    cases h
    rfl
  all_goals cases h

/-- Where no token can be read, the fault is a lexical one. -/
theorem kind_of_next_error {c : Cursor} {f : Diagnostic} (h : c.next = .error f) :
    f.fault.kind = .lexical := by
  unfold next lexeme at h
  split at h
  next => cases h
  next g rest hrest =>
    split at h
    next => cases h
    next =>
      split at h
      next => exact kind_of_string_error h
      next =>
        split at h
        next => exact kind_of_number_error h
        next =>
          split at h
          next => cases h
          next =>
            split at h
            next => cases h
            next fault hfault =>
              cases h
              exact kind_of_operator?_error hfault

theorem kind_of_scan_fault (c : Cursor) {f : Diagnostic} (h : c.scan.fault = some f) :
    f.fault.kind = .lexical := by
  fun_induction scan c with
  | case1 c f' hnext =>
    cases h
    exact kind_of_next_error hnext
  | case2 c t d hnext ht => cases h
  | case3 c t d hnext ht _ later ih => exact ih h

end Cursor

/-! ## Faults at the end of a program -/

namespace State

/-- What is found at the end of a program is always semantic. -/
theorem kind_of_mem_missingLabels {known : List Bytes} {jumps : List (Bytes × Position)}
    {d : Diagnostic} (h : d ∈ missingLabels known jumps) : d.fault.kind = .semantic := by
  induction jumps generalizing known with
  | nil => cases h
  | cons jump jumps ih =>
    obtain ⟨name, position⟩ := jump
    rw [missingLabels] at h
    split at h
    next => exact ih h
    next =>
      rcases List.mem_cons.1 h with rfl | h
      · rfl
      · exact ih h

theorem kind_of_verdict {s : State} {failure : Failure} (h : s.verdict = some failure) :
    ∀ d ∈ failure.diagnostics, d.fault.kind = .semantic := by
  unfold verdict at h
  split at h
  next => cases h
  next =>
    cases h
    intro d hd
    exact kind_of_mem_missingLabels hd

end State

/-! ## Tokens that are acted on -/

namespace Scan

/-- Up to the last token before a fault, what is acted on is what was read. -/
theorem take_acted {scan : Scan} {k : Nat}
    (h : scan.fault = none ∨ k + 1 ≤ scan.tokens.length) :
    scan.acted.take k = scan.tokens.take k := by
  unfold acted
  split
  next => rfl
  next f hfault =>
    have hlength : k ≤ scan.tokens.length - 1 := by
      rcases h with h | h
      · rw [hfault] at h
        cases h
      · omega
    rw [List.dropLast_eq_take, List.take_take, Nat.min_eq_left hlength]

variable {file source : Bytes} {before after : List Token} {t : Token}

/-- Behind a token that is acted on another one has been read, unless the token is the end of the
input. -/
theorem ahead_of_acted (h : (scan file source).acted = before ++ t :: after) :
    (scan file source).tokens.take (before.length + 1) = before ++ [t] ∧
      (before.length + 2 ≤ (scan file source).tokens.length ∨
        t.kind = .eof ∧ (scan file source).tokens.length = before.length + 1) := by
  have htake : (before ++ t :: after).take (before.length + 1) = before ++ [t] := by
    rw [show before ++ t :: after = (before ++ [t]) ++ after by simp]
    exact List.take_left' (by simp)
  cases hfault : (scan file source).fault with
  | none =>
    have htokens : (scan file source).tokens = before ++ t :: after := by
      rw [← h, acted, hfault]
    rw [htokens]
    refine ⟨htake, ?_⟩
    obtain ⟨ts, e, hend, he, -⟩ := Cursor.exists_eof_of_fault_none _ hfault
    cases after with
    | nil =>
      right
      have hlast : before ++ [t] = ts ++ [e] := htokens.symm.trans hend
      obtain ⟨-, rfl⟩ := List.append_singleton_inj.1 hlast
      exact ⟨he, by simp⟩
    | cons ahead after =>
      left
      simp only [List.length_append, List.length_cons]
      omega
  | some f =>
    have hlength : (scan file source).tokens.length - 1 = before.length + (after.length + 1) := by
      have hacted := congrArg List.length h
      simpa only [acted, hfault, List.length_dropLast, List.length_append, List.length_cons]
        using hacted
    have hle : before.length + 2 ≤ (scan file source).tokens.length := by omega
    rw [← take_acted (Or.inr hle), h]
    exact ⟨htake, Or.inl hle⟩

/-- Two sources with the same tokens up to the one behind `t` have the same tokens to act on up to
`t`. -/
theorem acted_of_take_eq {file' source' : Bytes}
    (h : (scan file source).acted = before ++ t :: after)
    (heq : (scan file' source').tokens.take (before.length + 2) =
      (scan file source).tokens.take (before.length + 2)) :
    ∃ after', (scan file' source').acted = before ++ t :: after' := by
  obtain ⟨htake, hahead⟩ := ahead_of_acted h
  have htake' : (scan file' source').tokens.take (before.length + 1) = before ++ [t] := by
    have hshort := congrArg (List.take (before.length + 1)) heq
    rw [List.take_take, List.take_take, Nat.min_eq_left (Nat.le_succ _)] at hshort
    exact hshort.trans htake
  have hacted : (scan file' source').fault = none ∨
      before.length + 2 ≤ (scan file' source').tokens.length := by
    rcases hahead with hlength | ⟨ht, hlength⟩
    · right
      have := congrArg List.length heq
      rw [List.length_take, List.length_take] at this
      omega
    · -- a token that ends the input is never followed by a fault
      left
      cases hfault : (scan file' source').fault with
      | none => rfl
      | some f =>
        have hmem : t ∈ (scan file' source').tokens := by
          refine List.mem_of_mem_take (i := before.length + 1) ?_
          rw [htake']
          simp
        exact absurd ht (Cursor.kind_ne_eof_of_fault_some _ hfault t hmem)
  refine ⟨(scan file' source').acted.drop (before.length + 1), ?_⟩
  have hsplit := List.take_append_drop (before.length + 1) (scan file' source').acted
  rw [take_acted hacted, htake', List.append_assoc] at hsplit
  exact hsplit.symm

end Scan

/-! ## How a run ends -/

namespace Run

variable {bound : Option Nat} {file source : Bytes}

/-- A run that refuses a token emits what the steps up to there emit. -/
theorem of_refused {before after : List Token} {t : Token} {es : List Emission} {s : State}
    {d : Diagnostic} (hacted : (scan file source).acted = before ++ t :: after)
    (hsteps : State.start.steps bound before = ⟨es, .more s⟩)
    (hrefused : (s.step bound t).progress = .refused d) :
    (ofSource bound file source).emissions = es ++ (s.step bound t).emissions ∧
      (ofSource bound file source).failure = some (.single d) := by
  have hstep : s.step bound t = ⟨(s.step bound t).emissions, .refused d⟩ := by rw [← hrefused]
  rw [(ofSource_eq_steps bound file source).1, (ofSource_eq_steps bound file source).2, hacted,
    State.steps_append, hsteps, Move.andThen_more, State.steps_cons, hstep]
  exact ⟨rfl, rfl⟩

/-- Where fewer than two tokens can be read, nothing is done but to report why. -/
theorem of_short_scan {f : Diagnostic} (hfault : (scan file source).fault = some f)
    (hlength : (scan file source).tokens.length < 2) :
    (ofSource bound file source).failure = some (.single f) ∧
      (ofSource bound file source).emissions = [] := by
  have hacted : (scan file source).acted = [] := by
    rw [Scan.acted, hfault]
    apply List.eq_nil_of_length_eq_zero
    rw [List.length_dropLast]
    omega
  rw [(ofSource_eq_steps bound file source).1, (ofSource_eq_steps bound file source).2, hacted,
    hfault]
  exact ⟨rfl, rfl⟩

/-- Where the scan goes through, no fault of the run is a lexical one. -/
theorem kind_of_failure {failure : Failure} (hfault : (scan file source).fault = none)
    (h : (ofSource bound file source).failure = some failure) :
    ∀ d ∈ failure.diagnostics, d.fault.kind = .syntactic ∨ d.fault.kind = .semantic := by
  intro d hd
  rcases failure_cases bound file source with ⟨f, hf, -⟩ | ⟨s, -, -, hs⟩ |
    ⟨before, t, after, es, s, d', -, -, hrefused, hd'⟩
  · rw [hfault] at hf
    cases hf
  · rw [hs] at h
    exact Or.inr (State.kind_of_verdict h d hd)
  · rw [hd'] at h
    cases h
    cases List.mem_singleton.1 hd
    exact (State.of_step_refused hrefused).2

/-- A token is refused after the token behind it was read, and the tokens up to that one decide
about it: every source that has them is refused in the same way. -/
theorem decided_by_tokens {d : Diagnostic}
    (h : (ofSource bound file source).failure = some (.single d))
    (hkind : d.fault.kind = .syntactic ∨ d.fault.kind = .semantic) :
    ∃ i t, (scan file source).tokens[i]? = some t ∧ d.position = t.position ∧
      (i + 2 ≤ (scan file source).tokens.length ∨
        t.kind = .eof ∧ (scan file source).tokens.length = i + 1) ∧
      ∀ file' source',
        (scan file' source').tokens.take (i + 2) = (scan file source).tokens.take (i + 2) →
          (ofSource bound file' source').emissions = (ofSource bound file source).emissions ∧
            (ofSource bound file' source').failure = (ofSource bound file source).failure := by
  rcases failure_cases bound file source with ⟨f, hfault, hf⟩ | ⟨s, -, -, hs⟩ |
    ⟨before, t, after, es, s, d', hacted, hsteps, hrefused, hd⟩
  · rw [hf] at h
    cases h
    rw [Cursor.kind_of_scan_fault _ hfault] at hkind
    simp at hkind
  · rw [hs] at h
    exact absurd h (s.verdict_ne_single d)
  · rw [hd] at h
    cases h
    obtain ⟨htake, hahead⟩ := Scan.ahead_of_acted hacted
    have hget : (scan file source).tokens[before.length]? = some t := by
      rw [← List.getElem?_take_of_lt (Nat.lt_succ_self _), htake]
      simp
    refine ⟨before.length, t, hget, (State.of_step_refused hrefused).1, hahead, ?_⟩
    intro file' source' heq
    obtain ⟨after', hacted'⟩ := Scan.acted_of_take_eq hacted heq
    obtain ⟨hes, hfailure⟩ := of_refused hacted hsteps hrefused
    obtain ⟨hes', hfailure'⟩ := of_refused hacted' hsteps hrefused
    exact ⟨hes'.trans hes.symm, hfailure'.trans hfailure.symm⟩

/-- Where a fault stops the scan, the run reports it, or refuses a token before the last one that
was read. -/
theorem failure_of_fault {f : Diagnostic} (hfault : (scan file source).fault = some f) :
    (ofSource bound file source).failure = some (.single f) ∨
      ∃ d, (ofSource bound file source).failure = some (.single d) ∧
        (d.fault.kind = .syntactic ∨ d.fault.kind = .semantic) ∧
        ∃ i t, (scan file source).tokens[i]? = some t ∧ d.position = t.position ∧
          i + 2 ≤ (scan file source).tokens.length := by
  rcases failure_cases bound file source with ⟨f', hf', hf⟩ | ⟨s, hnone, -, -⟩ |
    ⟨before, t, after, es, s, d, -, -, hrefused, hd⟩
  · rw [hfault] at hf'
    cases hf'
    exact Or.inl hf
  · rw [hfault] at hnone
    cases hnone
  · have hkind := (State.of_step_refused hrefused).2
    obtain ⟨i, t, hget, hposition, hahead, -⟩ := decided_by_tokens hd hkind
    refine Or.inr ⟨d, hd, hkind, i, t, hget, hposition, ?_⟩
    rcases hahead with hlength | ⟨ht, -⟩
    · exact hlength
    · exact absurd ht
        (Cursor.kind_ne_eof_of_fault_some _ hfault t (List.mem_of_getElem? hget))

/-- A run on a source that can be scanned reports no lexical fault. A run on another source reports
the fault of the scan, or refuses a token that is not the last one scanned; with fewer than two
tokens it does the former, and emits nothing. And where a run refuses a token, so does the run on
every source with the same tokens up to the one behind it, with the same emissions and the same
fault. -/
theorem failure_agrees_with_scan (bound : Option Nat) (file source : Bytes) :
    ((scan file source).fault = none →
      ∀ failure, (ofSource bound file source).failure = some failure →
        ∀ d ∈ failure.diagnostics, d.fault.kind = .syntactic ∨ d.fault.kind = .semantic) ∧
    (∀ f, (scan file source).fault = some f →
      f.fault.kind = .lexical ∧
      ((ofSource bound file source).failure = some (.single f) ∨
        ∃ d, (ofSource bound file source).failure = some (.single d) ∧
          (d.fault.kind = .syntactic ∨ d.fault.kind = .semantic) ∧
          ∃ i t, (scan file source).tokens[i]? = some t ∧ d.position = t.position ∧
            i + 2 ≤ (scan file source).tokens.length) ∧
      ((scan file source).tokens.length < 2 →
        (ofSource bound file source).failure = some (.single f) ∧
          (ofSource bound file source).emissions = [])) ∧
    ∀ d, (ofSource bound file source).failure = some (.single d) →
      d.fault.kind = .syntactic ∨ d.fault.kind = .semantic →
        ∃ i t, (scan file source).tokens[i]? = some t ∧ d.position = t.position ∧
          (i + 2 ≤ (scan file source).tokens.length ∨
            t.kind = .eof ∧ (scan file source).tokens.length = i + 1) ∧
          ∀ file' source',
            (scan file' source').tokens.take (i + 2) = (scan file source).tokens.take (i + 2) →
              (ofSource bound file' source').emissions = (ofSource bound file source).emissions ∧
                (ofSource bound file' source').failure =
                  (ofSource bound file source).failure := by
  refine ⟨fun hfault failure h => kind_of_failure hfault h, fun f hfault => ?_,
    fun d h hkind => decided_by_tokens h hkind⟩
  exact ⟨Cursor.kind_of_scan_fault _ hfault, failure_of_fault hfault, of_short_scan hfault⟩

/-- A string that its line does not close hides the use of a variable directly before it, and does
not hide one that has another token behind it. -/
theorem failure_agrees_with_scan_of_open_string :
    (ofSource none [] (bytes "LET a = b \"")).failure =
        some (.single ⟨⟨[], 1, 12⟩, .stringPastLine⟩) ∧
      (ofSource none [] (bytes "LET a = b c \"")).failure =
        some (.single ⟨⟨[], 1, 9⟩, .unassignedVariable (bytes "b")⟩) ∧
      ∃ i t, (scan [] (bytes "LET a = b c \"")).tokens[i]? = some t ∧
        (⟨[], 1, 9⟩ : Position) = t.position ∧
        (i + 2 ≤ (scan [] (bytes "LET a = b c \"")).tokens.length ∨
          t.kind = .eof ∧ (scan [] (bytes "LET a = b c \"")).tokens.length = i + 1) ∧
        ∀ file' source',
          (scan file' source').tokens.take (i + 2) =
              (scan [] (bytes "LET a = b c \"")).tokens.take (i + 2) →
            (ofSource none file' source').emissions =
                (ofSource none [] (bytes "LET a = b c \"")).emissions ∧
              (ofSource none file' source').failure =
                (ofSource none [] (bytes "LET a = b c \"")).failure := by
  have hhidden : (ofSource none [] (bytes "LET a = b \"")).failure =
      some (.single ⟨⟨[], 1, 12⟩, .stringPastLine⟩) := by
    decide +kernel
  have hrefused : (ofSource none [] (bytes "LET a = b c \"")).failure =
      some (.single ⟨⟨[], 1, 9⟩, .unassignedVariable (bytes "b")⟩) := by
    decide +kernel
  obtain ⟨-, -, hdecided⟩ := failure_agrees_with_scan none [] (bytes "LET a = b c \"")
  exact ⟨hhidden, hrefused, hdecided _ hrefused (Or.inr rfl)⟩

end Run

end Teeny
