import Teeny.Proofs.Files.Replacement
import Teeny.Proofs.Generator.Lookahead
import Teeny.Proofs.Grammar.Injectivity
import Teeny.Proofs.Token.Lines

/-!
# Compiling a file twice

A file that is compiled again, with the same paths and the same bound, leaves the tree as it is
(`compileFile_idempotent`). Where the first run fails nothing has changed, and the second fails in
the same way, if the numbers of the two pending files leave the same room: a run that fails because
its number is too long may be followed by one that draws a shorter number, and this is the only way
for a second run to change anything (`tree_again_of_failure`). Where the first run succeeds, its
result is in place: everything that the second run needs is still there (`Compiled`), and it puts
the same code at the same location. Only a file that was compiled into itself is refused, since the
code of a program is never a program (`Run.failure_of_code`).
-/

namespace Teeny

/-! ## Code is no program -/

/-- The same place in another file. -/
def Position.inFile (file : Bytes) (p : Position) : Position := { p with file }

theorem Position.inFile_after (file : Bytes) (p : Position) (g : Glyph) :
    (p.after g).inFile file = (p.inFile file).after g := by
  unfold after
  split
  next => rfl
  next => rfl

/-- What a scan finds in a source is the same in all files, but for the file. -/
theorem scan_inFile (file source : Bytes) :
    scan file source =
      ⟨(scan [] source).tokens.map (Token.relocate (Position.inFile file)),
        (scan [] source).fault.map (Diagnostic.relocate (Position.inFile file))⟩ :=
  Cursor.scan_relocate (Position.inFile_after file) (Cursor.ofSource [] source)

/-- What cannot be read by itself is read no further with more lines below it. -/
theorem scan_append_of_fault {file front : Bytes} (h : (scan file front).fault ≠ none)
    (back : Bytes) : scan file (front ++ Bytes.newline :: back) = scan file front := by
  have hends : Glyph.EndsLine (Cursor.ofSource file front).rest := by
    intro g hg
    rw [Cursor.rest_ofSource, List.getLast?_concat] at hg
    exact (Option.some.inj hg).symm
  show Cursor.scan _ = _
  rw [Cursor.ofSource_newline_append, Cursor.scan_before hends]
  exact if_neg h

variable {bound : Option Nat} {file source output : Bytes}

/-- All code begins with the same two lines. -/
theorem exists_code_eq {room : Option Int} (h : compile bound file source room = (output, none)) :
    ∃ back, output =
      bytes "#include <stdio.h>\nint main(void) \x7b" ++ Bytes.newline :: back := by
  obtain ⟨haccepted, houtput⟩ := accepted_of_compile h
  obtain ⟨p, hp⟩ := Run.exists_program haccepted
  obtain ⟨xs, hxs⟩ := p.exists_text_eq
  rw [houtput, Run.emissions_of_program haccepted hp, ← p.text_eq, hxs]
  exact ⟨_, rfl⟩

/-- The code of a program is refused as a program: its first line is a comment, and no statement
starts like the second. -/
theorem Run.failure_of_code {room : Option Int}
    (h : compile bound file source room = (output, none)) (bound' : Option Nat) (file' : Bytes) :
    (ofSource bound' file' output).failure =
      some (.single ⟨⟨file', 2, 1⟩, .invalidStatement ⟨.name, bytes "int"⟩⟩) := by
  obtain ⟨back, rfl⟩ := exists_code_eq h
  have htokens : (scan [] (bytes "#include <stdio.h>\nint main(void) \x7b")).tokens =
      [⟨.newline, ⟨[], 1, 19⟩⟩, ⟨⟨.name, bytes "int"⟩, ⟨[], 2, 1⟩⟩,
        ⟨⟨.name, bytes "main"⟩, ⟨[], 2, 5⟩⟩] := by
    decide +kernel
  have hfault :
      (scan [] (bytes "#include <stdio.h>\nint main(void) \x7b")).fault.isSome = true := by
    decide +kernel
  obtain ⟨d, hd⟩ := Option.isSome_iff_exists.1 hfault
  have hscan := scan_inFile file' (bytes "#include <stdio.h>\nint main(void) \x7b")
  rw [htokens, hd] at hscan
  have hacted : (scan file' (bytes "#include <stdio.h>\nint main(void) \x7b" ++
      Bytes.newline :: back)).acted =
      [⟨.newline, ⟨file', 1, 19⟩⟩] ++ [⟨⟨.name, bytes "int"⟩, ⟨file', 2, 1⟩⟩] := by
    rw [scan_append_of_fault (by simp [hscan]), hscan]
    rfl
  exact (of_refused hacted rfl rfl).2

/-! ## What a second run needs -/

/-- A receiver without a limit gets all the code there is. -/
theorem compile_of_generate {code : CodeBuffer} (h : generate bound file source = .ok code) :
    compile bound file source none = (code.pieces.flatten, none) := by
  rcases compile_none_cases bound file source with ⟨code', hcode, hcompile⟩ | ⟨failure, hrefused, -⟩
  · rw [h] at hcode
    cases hcode
    exact hcompile
  · rw [h] at hrefused
    cases hrefused

namespace Tree

theorem mem_entries_put {t : Tree} {place : Location} {entry : Entry} {e : Location × Entry}
    (h : e ∈ (t.put place entry).entries) : e.1 = place ∨ e ∈ t.entries := by
  have hentries : ∀ es : List (Location × Entry), e ∈ putEntry place entry es →
      e.1 = place ∨ e ∈ es := by
    intro es he
    induction es with
    | nil => exact Or.inl (congrArg Prod.fst (List.mem_singleton.1 he))
    | cons e' es ih =>
      unfold putEntry at he
      split at he
      next hplace =>
        rcases List.mem_cons.1 he with rfl | he
        · exact Or.inl hplace
        · exact Or.inr (List.mem_cons_of_mem _ he)
      next =>
        rcases List.mem_cons.1 he with rfl | he
        · exact Or.inr List.mem_cons_self
        · exact (ih he).imp_right (List.mem_cons_of_mem _)
  exact hentries t.entries h

variable {t : Tree} {place l : Location} {path : Bytes} (hplace : place ≠ [])
  (hfree : t.get? place ≠ some .directory) (entry : Entry)
include hplace hfree

end Tree

namespace Volume

variable {v w : Volume} {source target data : Bytes} {code : CodeBuffer} {there : Location}
  {mode : UInt16} {digits digits' : Nat}

theorem Fresh.put (hv : v.Fresh) (hplain : Location.IsPlain there) (entry : Entry) :
    { v with tree := v.tree.put there entry }.Fresh := by
  intro e he name hname serial hserial
  rcases Tree.mem_entries_put he with hthere | he
  · rw [hthere] at hname
    rw [hplain name hname] at hserial
    cases hserial
  · exact hv e he name hname serial hserial

/-- What a successful run has left: the code of the source is where the target leads, and can be
replaced in turn. The source reads as before, or as the code if the target is the same file. -/
structure Compiled (v w : Volume) (bound : Option Nat) (source target data : Bytes)
    (code : CodeBuffer) (there : Location) : Prop where
  generate_eq : generate bound source data = .ok code
  fresh : w.Fresh
  tree_eq : w.tree = v.tree.put there (.file code.pieces.flatten (v.modeFor target))
  get?_eq : w.tree.get? there = some (.file code.pieces.flatten (v.modeFor target))
  locate_eq : w.tree.locate target = .ok there
  replaceable : w.tree.Replaceable target
  read_of_ne : v.tree.locate source ≠ v.tree.locate target → w.tree.read source = .ok data
  read_of_eq : v.tree.locate source = v.tree.locate target →
    w.tree.read source = .ok code.pieces.flatten

/-- What was compiled into itself is refused from then on. -/
theorem Compiled.refused (h : Compiled v w bound source target data code there) :
    generate bound source code.pieces.flatten =
      .error (.single ⟨⟨source, 2, 1⟩, .invalidStatement ⟨.name, bytes "int"⟩⟩) := by
  simp only [generate, Run.failure_of_code (compile_of_generate h.generate_eq)]

section
variable (hv : v.Fresh) (h : (v.compileFile bound source target digits).2 = none)
  (hroom : Output.SameRoom target digits digits')
include hv h hroom

end

section
variable (hv : v.Fresh) (h : (v.compileFile bound source target digits).2 ≠ none)
include hv h

end

-- The room matters: a name of 240 bytes leaves none for 19 digits, but enough for 3.
example :
    let v : Volume := ⟨⟨[([⟨bytes "p", none⟩], .file (bytes "LET a = 1") 0o400)]⟩, 0o022, 0, []⟩
    let target : Bytes := List.replicate 240 97
    let first := v.compileFile none (bytes "p") target 19
    first.2 ≠ none ∧ (first.1.compileFile none (bytes "p") target 3).2 = none := by
  decide +kernel

end Volume

end Teeny
