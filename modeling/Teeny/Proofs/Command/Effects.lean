import Teeny.Proofs.Command.Arguments
import Teeny.Proofs.Command.Reports

/-!
# What the command does to files

Only compiling touches files. Every other way for the command to end leaves the volume alone
(`run_cases`), and compiling is all or nothing, so the command is (`run_all_or_nothing`).
-/

namespace Teeny.Command

variable {arguments : List Bytes} {o : Options} {file : Bytes}

theorem emitTokens_cases (host : Host) (o : Options) (file : Bytes) (v : Volume) :
    (emitTokens host o file v).volume = v ∧
      ((emitTokens host o file v).exit = 0 ∨ (emitTokens host o file v).exit = 1) := by
  unfold emitTokens
  dsimp only
  split
  next => exact ⟨rfl, .inr rfl⟩
  next =>
    split
    next => exact ⟨rfl, .inr rfl⟩
    next pieces _ =>
      generalize Delivery.offer _ pieces = delivery
      split
      next =>
        split
        next => exact ⟨rfl, .inl rfl⟩
        next => exact ⟨rfl, .inr rfl⟩
      next => exact ⟨rfl, .inr rfl⟩

/-- One input file is compiled, unless the version or a list of tokens is wanted. -/
theorem run_of_parse (host : Host) (v : Volume) (h : parse .initial arguments = .ok (o, [file]))
    (hversion : o.version = false) (htokens : o.emitTokens = false) :
    run host arguments v = compile host o file v := by
  rw [run, h]
  simp [execute, hversion, htokens]

/-- The command compiles its one input file, or it leaves the volume alone. -/
theorem run_cases (host : Host) (arguments : List Bytes) (v : Volume) :
    (∃ o file, parse .initial arguments = .ok (o, [file]) ∧ o.version = false ∧
        o.emitTokens = false) ∨
      (run host arguments v).volume = v ∧
        ((run host arguments v).exit = 0 ∨ (run host arguments v).exit = 1 ∨
          (run host arguments v).exit = 2) := by
  unfold run
  split
  next o files hparse =>
    unfold execute
    cases hversion : o.version with
    | true => exact Or.inr ⟨rfl, .inl rfl⟩
    | false =>
      match files with
      | [] => exact Or.inr ⟨rfl, .inr (.inl rfl)⟩
      | [file] =>
        cases htokens : o.emitTokens with
        | true =>
          obtain ⟨hvolume, hexit⟩ := emitTokens_cases host o file v
          exact Or.inr ⟨hvolume, hexit.imp_right .inl⟩
        | false => exact Or.inl ⟨o, file, hparse, hversion, htokens⟩
      | _ :: _ :: _ => exact Or.inr ⟨rfl, .inr (.inl rfl)⟩
  next =>
    split
    next => exact Or.inr ⟨rfl, .inl rfl⟩
    next => exact Or.inr ⟨rfl, .inr (.inr rfl)⟩

/-- Compiling succeeds and puts the code at the destination, or it fails and leaves the tree as it
was. -/
theorem compile_cases {v : Volume} (hv : v.Fresh) (host : Host) (o : Options) (file : Bytes) :
    (¬ v.Compilable (Depth.ofSetting o.maxDepth) file (destination o file) host.digits ∧
        (compile host o file v).exit = 1 ∧ (compile host o file v).volume.tree = v.tree) ∨
      v.Compilable (Depth.ofSetting o.maxDepth) file (destination o file) host.digits ∧
        (compile host o file v).exit = 0 ∧
        ∃ data code there, v.tree.read file = .ok data ∧
          Teeny.compile (Depth.ofSetting o.maxDepth) file data none = (code, none) ∧
          (compile host o file v).volume.tree.locate (destination o file) = .ok there ∧
          (compile host o file v).volume.tree =
            v.tree.put there (.file code (v.modeFor (destination o file))) := by
  obtain ⟨stages, hstages⟩ := exists_traced host o file v
  rw [hstages]
  rcases Volume.compileFile_cases hv (Depth.ofSetting o.maxDepth) file (destination o file)
      host.digits with ⟨hnot, herror, htree⟩ | ⟨hok, hnone, htree⟩
  · refine Or.inl ⟨hnot, ?_, htree⟩
    simpa [Result.traced, Result.ofCompilation] using herror
  · refine Or.inr ⟨hok, ?_, htree⟩
    simp [Result.traced, Result.ofCompilation, hnone]

/-- The command has its whole effect or none. It ends with 0, 1 or 2. Unless it ends with 0, the
tree is as it was. If it does, the tree is as it was or has changed at the destination only. That
is the last output path given, or else the usual one, and it holds the code of the one input file,
which is accepted with the last depth given. The arguments can then be read in this way only, so
they ask for no help, and neither the version nor a list of tokens is wanted. Conversely, arguments
read in this way make the command succeed exactly if the file can be compiled. -/
theorem run_all_or_nothing (host : Host) (arguments : List Bytes) (v : Volume) (hv : v.Fresh) :
    let result := run host arguments v
    (result.exit = 0 ∨ result.exit = 1 ∨ result.exit = 2) ∧
      (result.exit ≠ 0 → result.volume.tree = v.tree) ∧
      (result.exit = 0 → result.volume.tree = v.tree ∨
        ∃ settings file o target data code there,
          (∀ s files, Reading arguments s files ↔ s = settings ∧ files = [file]) ∧
          Options.initial.IsSet settings o ∧ o.version = false ∧ o.emitTokens = false ∧
          target = (if o.output = [] then Path.outputName file else o.output) ∧
          v.tree.read file = .ok data ∧
          Teeny.compile (Depth.ofSetting o.maxDepth) file data none = (code, none) ∧
          result.volume.tree.locate target = .ok there ∧
          result.volume.tree = v.tree.put there (.file code (v.modeFor target))) ∧
      ∀ settings file o, Reading arguments settings [file] → Options.initial.IsSet settings o →
        o.version = false → o.emitTokens = false →
        (result.exit = 0 ↔ v.Compilable (Depth.ofSetting o.maxDepth) file
          (if o.output = [] then Path.outputName file else o.output) host.digits) := by
  intro result
  have hconverse : ∀ settings file o, Reading arguments settings [file] →
      Options.initial.IsSet settings o → o.version = false → o.emitTokens = false →
      (result.exit = 0 ↔
        v.Compilable (Depth.ofSetting o.maxDepth) file (destination o file) host.digits) := by
    intro settings file o hreading hset hversion htokens
    have hresult : result = compile host o file v :=
      run_of_parse host v (parse_eq_ok_iff.2 ⟨settings, hreading, hset⟩) hversion htokens
    rw [hresult]
    rcases compile_cases hv host o file with ⟨hnot, hexit, -⟩ | ⟨hok, hexit, -⟩
    · simp [hnot, hexit]
    · simp [hok, hexit]
  rcases run_cases host arguments v with ⟨o, file, hparse, hversion, htokens⟩ | ⟨hvolume, hexit⟩
  · obtain ⟨settings, hreading, hset⟩ := parse_eq_ok_iff.1 hparse
    have hresult : result = compile host o file v := run_of_parse host v hparse hversion htokens
    rcases compile_cases hv host o file with
      ⟨-, hexit, htree⟩ | ⟨-, hexit, data, code, there, hread, hcode, hlocate, htree⟩
    · rw [← hresult] at hexit htree
      exact ⟨.inr (.inl hexit), fun _ => htree, fun _ => .inl htree, hconverse⟩
    · rw [← hresult] at hexit hlocate htree
      refine ⟨.inl hexit, fun h => absurd hexit h, fun _ => .inr ?_, hconverse⟩
      refine ⟨settings, file, o, destination o file, data, code, there, fun s files => ?_, hset,
        hversion, htokens, rfl, hread, hcode, hlocate, htree⟩
      constructor
      · intro h
        exact h.unique hreading
      · rintro ⟨rfl, rfl⟩
        exact hreading
  · have htree : result.volume.tree = v.tree := congrArg Volume.tree hvolume
    exact ⟨hexit, fun _ => htree, fun _ => .inl htree, hconverse⟩

/-- Of two destinations the last is written, and a standard output that takes nothing does not
matter. -/
theorem run_all_or_nothing_of_two_outputs :
    let v : Volume := ⟨⟨[([⟨bytes "p", none⟩], .file (bytes "LET a = 1") 0o600)]⟩, 0o022, 0, []⟩
    let arguments := [bytes "-o", bytes "a", bytes "--o=b", bytes "p"]
    let result := run ⟨[], [], true, 19⟩ arguments v
    v.Fresh ∧ Reading arguments [(.output, bytes "a"), (.output, bytes "b")] [bytes "p"] ∧
      result.exit = 0 ∧
      ∃ code, Teeny.compile (some 1000) (bytes "p") (bytes "LET a = 1") none = (code, none) ∧
        result.volume.tree = v.tree.put [⟨bytes "b", none⟩] (.file code 0o644) := by
  intro v arguments result
  have hv : v.Fresh := by simp [Volume.Fresh, v]
  have hreading : Reading arguments [(.output, bytes "a"), (.output, bytes "b")] [bytes "p"] :=
    .option ⟨_, .inl rfl, rfl⟩ (.separate rfl _ _)
      (.option ⟨_, .inr rfl, rfl⟩ (.attached _ _) (.operand [] (.inl (by decide))))
  have hexit : result.exit = 0 := by decide +kernel
  refine ⟨hv, hreading, hexit, ?_⟩
  obtain ⟨-, -, hok, -⟩ := run_all_or_nothing ⟨[], [], true, 19⟩ arguments v hv
  rcases hok hexit with hsame | ⟨settings, file, o, target, data, code, there, hunique, hset, -, -,
    htarget, hread, hcode, hlocate, htree⟩
  · exact absurd hsame (by decide +kernel)
  · obtain ⟨rfl, hfile⟩ := (hunique _ _).1 hreading
    cases hfile
    have houtput : bytes "b" = o.output :=
      Value.text.inj (Option.some.inj (hset.value_eq .output))
    have hdepth : 1000 = o.maxDepth :=
      Value.number.inj (Option.some.inj (hset.value_eq .maxDepth))
    have hdata : v.tree.read (bytes "p") = .ok (bytes "LET a = 1") := rfl
    rw [hdata] at hread
    cases hread
    rw [← houtput, if_neg (by decide)] at htarget
    rw [← hdepth] at hcode
    subst htarget
    have hthere : (result.volume.tree.locate (bytes "b")).toOption = some [⟨bytes "b", none⟩] := by
      decide +kernel
    rw [hlocate] at hthere
    cases hthere
    have hmode : v.modeFor (bytes "b") = 0o644 := by decide +kernel
    rw [hmode] at htree
    exact ⟨code, hcode, htree⟩

end Teeny.Command
