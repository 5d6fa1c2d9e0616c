import Teeny.Proofs.Grammar.Acceptance
import Teeny.Proofs.Grammar.Names
import Teeny.Proofs.Token.Positions

/-!
# The check of jumps

Jumps are looked at when the program has ended, since a label may stand behind the jump to it. A run
comes that far exactly on a source that can be read, has the lexemes of a program, follows the rules
of scope that do not look ahead and is not nested too deeply (`Run.reachesEnd_iff`). Then the names
behind the words in the source decide: the program is refused for the jumps without a label, each
target once, at the first jump to it (`Run.label_check`). Any other source is refused for one thing
alone.
-/

namespace Teeny

/-! ## The first token of each text -/

/-- The tokens `firsts` are, of those in `ts`, the first one of each text that is not known. -/
structure Token.FirstOfEach (known : List Bytes) (ts firsts : List Token) : Prop where
  /-- They stand in their order. -/
  inOrder : firsts.Sublist ts
  /-- No two have the same text. -/
  once : (firsts.map fun t => t.text).Nodup
  /-- Each text that is not known is there, and no other one. -/
  unknown : ∀ x, x ∈ firsts.map (fun t => t.text) ↔ x ∈ ts.map (fun t => t.text) ∧ x ∉ known
  /-- None of the same text stands before them. -/
  first : ∀ t ∈ firsts, ts.find? (fun u => u.text = t.text) = some t

namespace Token.FirstOfEach

variable {known : List Bytes} {ts firsts : List Token}

theorem nil : FirstOfEach known [] [] :=
  ⟨.slnil, .nil, by simp, List.forall_mem_nil _⟩

/-- A token of a known text is passed by. -/
theorem skip (h : FirstOfEach known ts firsts) {t : Token} (ht : t.text ∈ known) :
    FirstOfEach known (t :: ts) firsts := by
  refine ⟨h.inOrder.cons t, h.once, ?_, ?_⟩
  · intro x
    rw [h.unknown, List.map_cons, List.mem_cons]
    constructor
    · rintro ⟨hx, hknown⟩
      exact ⟨Or.inr hx, hknown⟩
    · rintro ⟨rfl | hx, hknown⟩
      · exact absurd ht hknown
      · exact ⟨hx, hknown⟩
  · intro u hu
    have hne : t.text ≠ u.text := by
      intro he
      exact ((h.unknown u.text).1 (List.mem_map_of_mem hu)).2 (he ▸ ht)
    rw [List.find?_cons_of_neg (by simpa using hne)]
    exact h.first u hu

/-- A token of another text is the first one of it, and its text is known from there on. -/
theorem take {t : Token} (h : FirstOfEach (t.text :: known) ts firsts) (ht : t.text ∉ known) :
    FirstOfEach known (t :: ts) (t :: firsts) := by
  have hne : t.text ∉ firsts.map fun u => u.text := fun hmem =>
    ((h.unknown _).1 hmem).2 (List.mem_cons_self ..)
  refine ⟨h.inOrder.cons_cons t, ?_, ?_, ?_⟩
  · rw [List.map_cons, List.nodup_cons]
    exact ⟨hne, h.once⟩
  · intro x
    rw [List.map_cons, List.map_cons, List.mem_cons, List.mem_cons, h.unknown, List.mem_cons]
    constructor
    · rintro (rfl | ⟨hx, hknown⟩)
      · exact ⟨Or.inl rfl, ht⟩
      · exact ⟨Or.inr hx, fun hmem => hknown (Or.inr hmem)⟩
    · rintro ⟨rfl | hx, hknown⟩
      · exact Or.inl rfl
      · by_cases he : x = t.text
        · exact Or.inl he
        · exact Or.inr ⟨hx, fun hmem => hmem.elim he hknown⟩
  · intro u hu
    rcases List.mem_cons.1 hu with rfl | hu
    · exact List.find?_cons_of_pos (by simp)
    · have hother : t.text ≠ u.text := fun he => hne (he ▸ List.mem_map_of_mem hu)
      rw [List.find?_cons_of_neg (by simpa using hother)]
      exact h.first u hu

end Token.FirstOfEach

/-- The jumps without a label are reported at the first jump to each. -/
theorem State.exists_firstOfEach (known : List Bytes) (ts : List Token) :
    ∃ firsts, Token.FirstOfEach known ts firsts ∧
      missingLabels known (ts.map fun t => (t.text, t.position)) =
        firsts.map fun t => ⟨t.position, .missingLabel t.text⟩ := by
  induction ts generalizing known with
  | nil => exact ⟨[], .nil, rfl⟩
  | cons t ts ih =>
    rw [List.map_cons, missingLabels]
    split
    next ht =>
      obtain ⟨firsts, hfirsts, hmissing⟩ := ih known
      exact ⟨firsts, hfirsts.skip ht, hmissing⟩
    next ht =>
      obtain ⟨firsts, hfirsts, hmissing⟩ := ih (t.text :: known)
      exact ⟨t :: firsts, hfirsts.take ht, congrArg (List.cons _) hmissing⟩

/-! ## The end of a program -/

theorem State.verdict_eq_list {s : State} {ds : List Diagnostic}
    (h : missingLabels s.labels s.jumps = ds) (hne : s.verdict ≠ none) :
    ds ≠ [] ∧ s.verdict = some (.list ds) := by
  subst h
  unfold verdict at hne ⊢
  split at hne
  next => exact absurd rfl hne
  next hds => exact ⟨hds, rfl⟩

/-- A run that finishes knows the labels and jumps of all tokens, and its code ends with the lines
behind every program. -/
theorem State.finished_recalls {bound : Option Nat} {ts : List Token} {e : Token} {s : State}
    (hts : ∀ t ∈ ts, t.kind ≠ .eof)
    (h : (start.steps bound (ts ++ [e])).progress = .finished s) :
    s.labels = (Token.behind [.LABEL] (ts ++ [e])).map (fun t => t.text) ∧
      s.jumps = (Token.behind [.GOTO] (ts ++ [e])).map (fun t => (t.text, t.position)) ∧
      ∃ es, (start.steps bound (ts ++ [e])).emissions = es ++ epilogue := by
  rw [steps_append] at h ⊢
  cases hm : start.steps bound ts with
  | mk es p =>
    rw [hm] at h
    cases p with
    | refused d => cases h
    | finished s' =>
      obtain ⟨t, ht, hkind⟩ := steps_finished (congrArg Move.progress hm)
      exact absurd hkind (hts t ht)
    | more s' =>
      rw [Move.andThen_more, Move.progress_after, steps_singleton] at h
      rw [Move.andThen_more, steps_singleton]
      have hrecalls := recalls_steps hm
      -- the last step changes no more than the code, and no name is looked for there
      obtain ⟨rfl, hsettle, hname, fs, hemissions⟩ : s' = s ∧ s'.settle = s' ∧
          s'.phase.naming? = none ∧ ∃ fs, (s'.step bound e).emissions = fs ++ epilogue := by
        rcases @step_cases bound e s' with
          ⟨-, -, ⟨hphase, hstep⟩ | ⟨hphase, hstep⟩⟩ | hstays
        · rw [hstep] at h ⊢
          cases h
          exact ⟨rfl, by simp only [settle, hphase], by rw [hphase]; rfl, preamble, rfl⟩
        · rw [hstep] at h ⊢
          cases h
          exact ⟨rfl, by simp only [settle, hphase], by rw [hphase]; rfl, [], rfl⟩
        · exact absurd h (hstays.ne_finished s)
      have hbehind : ∀ words : List Keyword,
          (words.all fun k => (Kind.keyword k).naming?.isSome) = true →
          Token.behind words (ts ++ [e]) = Token.behind words ts := by
        intro words hwords
        rw [hrecalls.behind_concat words hwords, hname]
        exact List.append_nil _
      have hlabels := hrecalls.labels
      have hjumps := hrecalls.jumps
      rw [hsettle] at hlabels hjumps
      refine ⟨?_, ?_, es ++ fs, ?_⟩
      · rw [hbehind _ rfl, hlabels]
      · rw [hbehind _ rfl, hjumps]
      · show es ++ (s'.step bound e).emissions = _
        rw [hemissions, List.append_assoc]

/-- A program is finished exactly if it follows the rules of scope that do not look ahead, and its
blocks fit. -/
theorem State.exists_finished_iff {bound : Option Nat} {p : Program} {ts : List Token}
    (hp : p.lexemes = ts.map Token.toLexeme) :
    (∃ s, (start.steps bound ts).progress = .finished s) ↔
      Introduced p.body.mentions ∧ p.body.fits bound 0 = true := by
  constructor
  · rintro ⟨s, h⟩
    obtain ⟨s', hfollow, -⟩ := follow_of_steps (.start []) h
    rw [← hp] at hfollow
    obtain ⟨hadmits, hfits, -⟩ := of_finished_program hfollow
    exact ⟨(introduced_iff _).2 hadmits, hfits⟩
  · rintro ⟨hintroduced, hfits⟩
    obtain ⟨phase, hfollow⟩ :=
      finished_program p ((introduced_iff (.start [])).1 hintroduced) hfits
    rw [hp] at hfollow
    obtain ⟨s, hsteps, -⟩ := steps_of_follow hfollow
    exact ⟨s, congrArg Move.progress hsteps⟩

/-! ## Runs on a source -/

namespace Run

/-- Nothing is wrong with a source up to its end: it can be read, its lexemes are those of a
program, variables are assigned before they are used, labels are declared once, and blocks do not
nest more deeply than allowed. -/
structure ReachesEnd (bound : Option Nat) (file source : Bytes) : Prop where
  readable : (scan file source).fault = none
  derived : ∃ p : Program, p.lexemes = (scan file source).tokens.map Token.toLexeme ∧
    Introduced p.body.mentions ∧ ∀ n ∈ bound, p.body.depth ≤ n

variable {bound : Option Nat} {file source : Bytes}

theorem reachesEnd_iff :
    ReachesEnd bound file source ↔ (scan file source).fault = none ∧
      ∃ s, (State.start.steps bound (scan file source).tokens).progress = .finished s := by
  have hfits : ∀ p : Program,
      p.body.fits bound 0 = true ↔ ∀ n ∈ bound, p.body.depth ≤ n := by
    intro p
    rw [Statements.fits_iff, Nat.zero_add]
    cases bound with
    | none => simp [Depth.allows]
    | some n =>
      rw [Depth.allows_some]
      constructor
      · intro h m hm
        cases hm
        omega
      · intro h
        exact Or.inr (h n rfl)
  constructor
  · rintro ⟨hfault, p, hp, hintroduced, hdepth⟩
    exact ⟨hfault, (State.exists_finished_iff hp).2 ⟨hintroduced, (hfits p).2 hdepth⟩⟩
  · rintro ⟨hfault, s, hfinished⟩
    obtain ⟨ts, e, htokens, -, hts⟩ := Cursor.exists_eof_of_fault_none _ hfault
    have hwell := Cursor.isWellFormed_of_mem_scan (.ofSource file source)
    obtain ⟨p, hp⟩ : ∃ p : Program, p.lexemes = (scan file source).tokens.map Token.toLexeme := by
      rw [scan, htokens] at hfinished ⊢
      rw [htokens] at hwell
      exact State.exists_program_of_finished hts hwell hfinished
    obtain ⟨hintroduced, hdepth⟩ := (State.exists_finished_iff hp).1 ⟨s, hfinished⟩
    exact ⟨hfault, p, hp, hintroduced, (hfits p).1 hdepth⟩

/-- A run that comes to the end knows the labels and jumps of the source. -/
theorem ReachesEnd.exists_state (h : ReachesEnd bound file source) :
    ∃ s : State, (ofSource bound file source).failure = s.verdict ∧
      s.labels = (Token.behind [.LABEL] (scan file source).tokens).map (fun t => t.text) ∧
      s.jumps =
        (Token.behind [.GOTO] (scan file source).tokens).map (fun t => (t.text, t.position)) ∧
      ∃ es, (ofSource bound file source).emissions = es ++ State.epilogue := by
  obtain ⟨hfault, s, hfinished⟩ := reachesEnd_iff.1 h
  obtain ⟨hemissions, hfailure⟩ := ofSource_eq_steps bound file source
  rw [Scan.acted_of_fault_none hfault] at hemissions hfailure
  rw [hfinished] at hfailure
  refine ⟨s, hfailure, ?_⟩
  rw [hemissions]
  obtain ⟨ts, e, htokens, -, hts⟩ := Cursor.exists_eof_of_fault_none _ hfault
  rw [scan, htokens] at hfinished ⊢
  exact State.finished_recalls hts hfinished

/-- A source with nothing wrong up to its end has code with the lines behind every program, and is
refused for the jumps without a label: if there are any, for each target once, at the first jump to
it, in the order of the source. Any other source is refused for one thing alone. -/
theorem label_check (bound : Option Nat) (file source : Bytes) :
    (ReachesEnd bound file source →
        (∃ es, (ofSource bound file source).emissions =
          es ++ [.line (bytes "return 0;"), .line (bytes "\x7d")]) ∧
        ((ofSource bound file source).failure = none ↔
          ∀ t ∈ Token.behind [.GOTO] (scan file source).tokens,
            ∃ u ∈ Token.behind [.LABEL] (scan file source).tokens, u.text = t.text) ∧
        ((ofSource bound file source).failure ≠ none →
          ∃ firsts ds, firsts ≠ [] ∧
            Token.FirstOfEach
              ((Token.behind [.LABEL] (scan file source).tokens).map fun t => t.text)
              (Token.behind [.GOTO] (scan file source).tokens) firsts ∧
            ds = firsts.map (fun t => ⟨t.position, .missingLabel t.text⟩) ∧
            (∀ d ∈ ds, d.fault.kind = .semantic) ∧
            (ofSource bound file source).failure = some (.list ds) ∧
            (source.length ≤ UInt32.size - 3 →
              ds.Pairwise fun d d' => d.position.Before d'.position))) ∧
      (¬ ReachesEnd bound file source →
        ∃ d, (ofSource bound file source).failure = some (.single d)) := by
  constructor
  · intro hend
    obtain ⟨s, hfailure, hlabels, hjumps, hes⟩ := hend.exists_state
    refine ⟨hes, ?_, ?_⟩
    · rw [hfailure, State.verdict_eq_none_iff, hjumps, hlabels]
      simp
    · intro hne
      rw [hfailure] at hne ⊢
      obtain ⟨firsts, hfirsts, hmissing⟩ := State.exists_firstOfEach s.labels
        (Token.behind [.GOTO] (scan file source).tokens)
      rw [← hjumps] at hmissing
      obtain ⟨hds, hverdict⟩ := State.verdict_eq_list hmissing hne
      rw [hlabels] at hfirsts
      refine ⟨firsts, _, fun hnil => hds (by rw [hnil]; rfl), hfirsts, rfl, ?_, hverdict, ?_⟩
      · intro d hd
        obtain ⟨t, -, rfl⟩ := List.mem_map.1 hd
        rfl
      · intro hlength
        have hsublist : firsts.Sublist (scan file source).tokens :=
          hfirsts.inOrder.trans ((Token.sublist_behind _ _).trans (List.tail_sublist _))
        exact List.pairwise_map.2 ((pairwise_tokens file hlength).sublist hsublist)
  · intro hend
    rcases failure_cases bound file source with ⟨f, -, hf⟩ | ⟨s, hfault, hfinished, -⟩ |
      ⟨before, t, after, es, s, d, -, -, -, hd⟩
    · exact ⟨f, hf⟩
    · exact absurd (reachesEnd_iff.2 ⟨hfault, s, hfinished⟩) hend
    · exact ⟨d, hd⟩

/-- Of four jumps inside and outside of a block, three have no label, two of them to the same one:
there are two reports, at the first jump to each. A source that ends too early has one report
alone. -/
theorem label_check_of_missing_labels :
    let source := bytes "GOTO b\nIF 1 < 2 THEN\nGOTO a\nGOTO c\nENDIF\nGOTO b\nLABEL c"
    ReachesEnd none [] source ∧
      (∃ firsts : List Token,
        Token.FirstOfEach ((Token.behind [.LABEL] (scan [] source).tokens).map fun t => t.text)
          (Token.behind [.GOTO] (scan [] source).tokens) firsts ∧
        firsts.map (fun t => Diagnostic.mk t.position (.missingLabel t.text)) =
          [⟨⟨[], 1, 6⟩, .missingLabel (bytes "b")⟩, ⟨⟨[], 3, 6⟩, .missingLabel (bytes "a")⟩]) ∧
      ∃ d, (ofSource none [] (bytes "GOTO b\nGOTO")).failure = some (.single d) := by
  intro source
  have hfailure : (ofSource none [] source).failure = some (.list
      [⟨⟨[], 1, 6⟩, .missingLabel (bytes "b")⟩, ⟨⟨[], 3, 6⟩, .missingLabel (bytes "a")⟩]) := by
    decide +kernel
  obtain ⟨hcheck, hother⟩ := label_check none [] source
  have hend : ReachesEnd none [] source := by
    refine Classical.byContradiction fun hend => ?_
    obtain ⟨d, hd⟩ := hother hend
    rw [hfailure] at hd
    cases hd
  obtain ⟨-, -, hreports⟩ := hcheck hend
  obtain ⟨firsts, ds, -, hfirsts, rfl, -, hlist, -⟩ := hreports (by simp [hfailure])
  rw [hfailure, Option.some.injEq, Failure.list.injEq] at hlist
  refine ⟨hend, ⟨firsts, hfirsts, hlist.symm⟩, (label_check none [] (bytes "GOTO b\nGOTO")).2 ?_⟩
  have hrefused : (State.start.steps none (scan [] (bytes "GOTO b\nGOTO")).tokens).progress =
      .refused ⟨⟨[], 2, 5⟩, .expected .name .newline⟩ := by decide +kernel
  rw [reachesEnd_iff, hrefused]
  rintro ⟨-, s, hs⟩
  cases hs

end Run

end Teeny
