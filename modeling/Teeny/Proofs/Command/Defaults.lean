import Teeny.Proofs.Command.Effects
import Teeny.Proofs.Files.Replacement

/-!
# The usual output of a source

A path has a directory, which ends with its last slash, and behind that a name, whose extension
starts at its last dot (`Path.Parts`). These parts are unique, and the usual output has the same
directory and the same base with the extension of C. So it is another path than the source unless
the source has that extension already, and then it leads to another place beside it
(`locate_ne_of_sibling`): the usual output of a source never takes the place of the source
(`outputName_beside_source`).
-/

namespace Teeny

namespace Path

variable {p name base extension : Bytes}

/-! ## The last slash -/

theorem slash_notMem_lastElement (p : Bytes) : slash ∉ lastElement p := by
  intro hmem
  have hne := of_mem_takeWhile (List.mem_reverse.1 hmem)
  simp at hne

theorem eq_slash_of_getLast?_upToSlash (p : Bytes) : ∀ b ∈ (upToSlash p).getLast?, b = slash := by
  intro b hb
  rw [upToSlash, List.getLast?_reverse] at hb
  simpa using stops_dropWhile _ b hb

/-- What stands up to the last slash. -/
theorem upToSlash_eq {a e : Bytes} (ha : ∀ b ∈ a.getLast?, b = slash) (he : slash ∉ e) :
    upToSlash (a ++ e) = a := by
  have hsplit := upToSlash_append_lastElement (a ++ e)
  rw [lastElement_eq ha he] at hsplit
  exact List.append_cancel_right hsplit

/-- Behind a last slash that ends a path there is nothing. -/
theorem lastElement_ne_nil (hne : p ≠ []) (hslash : endsInSlash p = false) :
    lastElement p ≠ [] := by
  intro hnil
  have hsplit := upToSlash_append_lastElement p
  rw [hnil, List.append_nil] at hsplit
  have hends := eq_slash_of_getLast?_upToSlash p
  rw [hsplit] at hends
  obtain ⟨b, hb⟩ : ∃ b, p.getLast? = some b := ⟨_, List.getLast?_eq_some_getLast hne⟩
  rw [endsInSlash, hb, hends b hb] at hslash
  simp at hslash

theorem elements_eq_concat (h : lastElement p ≠ []) :
    elements p = elements (upToSlash p) ++ [lastElement p] := by
  rw [← elements_upToSlash_append p, elements_of_isElement ⟨h, slash_notMem_lastElement p⟩]

/-! ## The last dot -/

/-- Whether a name with this base has this extension: what it has from its last dot on, and nothing
if it has no dot. -/
def IsExtension (base extension : Bytes) : Prop :=
  extension = [] ∧ dot ∉ base ∨ ∃ rest, extension = dot :: rest ∧ dot ∉ rest

theorem isExtension_c (base : Bytes) : IsExtension base (bytes ".c") :=
  Or.inr ⟨bytes "c", rfl, by decide⟩

/-- Every name is a base with an extension. -/
theorem exists_extension (name : Bytes) :
    ∃ base extension, name = base ++ extension ∧ IsExtension base extension := by
  by_cases hdot : dot ∈ name
  · -- the last dot is the first one from the end
    obtain ⟨front, back, hname, hfront⟩ := List.eq_append_cons_of_mem (List.mem_reverse.2 hdot)
    refine ⟨back.reverse, dot :: front.reverse, ?_, Or.inr ⟨_, rfl, by simpa using hfront⟩⟩
    rw [← List.reverse_reverse name, hname, List.reverse_append, List.reverse_cons,
      List.append_assoc]
    rfl
  · exact ⟨name, [], (List.append_nil _).symm, Or.inl ⟨rfl, hdot⟩⟩

/-- Bytes that are neither dots nor slashes are passed over. -/
theorem extensionFrom_append {run : Bytes} (hslash : slash ∉ run) (hdot : dot ∉ run)
    (passed before : Bytes) :
    extensionFrom passed (run ++ before) = extensionFrom (run.reverse ++ passed) before := by
  induction run generalizing passed with
  | nil => rfl
  | cons b run ih =>
    rw [List.mem_cons, not_or] at hslash hdot
    rw [List.cons_append, extensionFrom, if_neg (Ne.symm hslash.1), if_neg (Ne.symm hdot.1),
      ih hslash.2 hdot.2, List.reverse_cons, List.append_assoc]
    rfl

theorem trimEnding_append (p ending : Bytes) : trimEnding (p ++ ending) ending = p := by
  have hends : ending.isSuffixOf (p ++ ending) = true :=
    List.isSuffixOf_iff_suffix.2 (List.suffix_append p ending)
  rw [trimEnding, if_pos hends, List.length_append, Nat.add_sub_cancel, List.take_left]

/-! ## Parts of a path -/

/-- What a path consists of: its text up to the last slash, and behind it a name, which is a base
and an extension. -/
structure Parts (p front base extension : Bytes) : Prop where
  eq_append : p = front ++ (base ++ extension)
  eq_slash : ∀ b ∈ front.getLast?, b = slash
  slash_notMem : slash ∉ base ++ extension
  isExtension : IsExtension base extension

namespace Parts

variable {front front' base' extension' : Bytes}

theorem lastElement_eq (h : Parts p front base extension) : lastElement p = base ++ extension := by
  rw [h.eq_append]
  exact Path.lastElement_eq h.eq_slash h.slash_notMem

theorem upToSlash_eq (h : Parts p front base extension) : upToSlash p = front := by
  rw [h.eq_append]
  exact Path.upToSlash_eq h.eq_slash h.slash_notMem

/-- The search for the extension finds it, and without a dot it stops at the last slash. -/
theorem extension_eq (h : Parts p front base extension) : Path.extension p = extension := by
  obtain ⟨hbase, hextension⟩ := not_or.1 (mt List.mem_append.2 h.slash_notMem)
  rw [Path.extension, h.eq_append, List.reverse_append, List.reverse_append]
  rcases h.isExtension with ⟨rfl, hdot⟩ | ⟨rest, rfl, hdot⟩
  · rw [List.reverse_nil, List.nil_append,
      extensionFrom_append (mt List.mem_reverse.1 hbase) (mt List.mem_reverse.1 hdot)]
    cases hfront : front.reverse with
    | nil => rfl
    | cons b before =>
      have hb : b = slash := h.eq_slash b (by rw [List.getLast?_eq_head?_reverse, hfront]; rfl)
      rw [extensionFrom, if_pos hb]
  · have hrest : slash ∉ rest := fun hmem => hextension (List.mem_cons_of_mem _ hmem)
    rw [List.reverse_cons, List.append_assoc, List.append_assoc,
      extensionFrom_append (mt List.mem_reverse.1 hrest) (mt List.mem_reverse.1 hdot),
      List.reverse_reverse, List.append_nil]
    rfl

/-- A path has its parts in one way only. -/
theorem unique (h : Parts p front base extension) (h' : Parts p front' base' extension') :
    front = front' ∧ base = base' ∧ extension = extension' := by
  have hfront : front = front' := h.upToSlash_eq.symm.trans h'.upToSlash_eq
  have hextension : extension = extension' := h.extension_eq.symm.trans h'.extension_eq
  have hname := h.lastElement_eq.symm.trans h'.lastElement_eq
  rw [hextension] at hname
  exact ⟨hfront, List.append_cancel_right hname, hextension⟩

/-- The usual output of a path has its directory, its base and the extension of C. -/
theorem outputName_eq (h : Parts p front base extension) :
    outputName p = front ++ (base ++ bytes ".c") := by
  have hsplit : p = (front ++ base) ++ extension := by rw [List.append_assoc, ← h.eq_append]
  rw [outputName, h.extension_eq, hsplit, trimEnding_append, List.append_assoc]

theorem output (h : Parts p front base extension) :
    Parts (outputName p) front base (bytes ".c") where
  eq_append := h.outputName_eq
  eq_slash := h.eq_slash
  slash_notMem := by
    intro hmem
    rcases List.mem_append.1 hmem with hmem | hmem
    · exact h.slash_notMem (List.mem_append_left _ hmem)
    · exact absurd hmem (by decide)
  isExtension := isExtension_c base

end Parts

theorem exists_parts (p : Bytes) : ∃ front base extension, Parts p front base extension := by
  obtain ⟨base, extension, hname, hextension⟩ := exists_extension (lastElement p)
  refine ⟨upToSlash p, base, extension, ?_, eq_slash_of_getLast?_upToSlash p, ?_, hextension⟩
  · rw [← hname, upToSlash_append_lastElement]
  · rw [← hname]
    exact slash_notMem_lastElement p

/-- A path that ends with the extension of C is its own output. -/
theorem outputName_eq_self_iff : outputName p = p ↔ bytes ".c" <:+ p := by
  constructor
  · intro h
    rw [← h]
    exact List.suffix_append _ _
  · rintro ⟨a, rfl⟩
    have hparts : Parts (a ++ bytes ".c") (upToSlash a) (lastElement a) (bytes ".c") := by
      refine ⟨?_, eq_slash_of_getLast?_upToSlash a, ?_, isExtension_c _⟩
      · rw [← List.append_assoc, upToSlash_append_lastElement]
      · intro hmem
        rcases List.mem_append.1 hmem with hmem | hmem
        · exact slash_notMem_lastElement a hmem
        · exact absurd hmem (by decide)
    exact hparts.outputName_eq.trans hparts.eq_append.symm

end Path

/-! ## Files beside each other -/

namespace Tree

variable {t : Tree} {here l there : Location} {es : List Bytes} {path sibling data : Bytes}

/-- Only a name leads to what is no directory. -/
theorem eq_concat_of_follow {last : Bytes} (habove : t.follow [] es = .ok here)
    (h : t.follow here [last] = .ok l) (hl : t.get? l ≠ some .directory) :
    l = here ++ [⟨last, none⟩] := by
  obtain ⟨hdir, hcases⟩ := follow_cons_eq_ok_iff.1 h
  rcases hcases with ⟨-, hrest⟩ | ⟨-, hrest⟩ | ⟨-, -, -, -, hrest⟩
  · cases hrest
    exact absurd hdir hl
  · cases hrest
    exact absurd (directory_dropLast habove hdir) hl
  · cases hrest
    rfl

/-- A file that is read lies under the last element of its path, in the directory before it. -/
theorem exists_directory_of_read (h : t.read path = .ok data) :
    ∃ here, Path.lastElement path ≠ [] ∧
      t.follow [] (Path.elements (Path.upToSlash path)) = .ok here ∧
      t.locate path = .ok (here ++ [⟨Path.lastElement path, none⟩]) := by
  obtain ⟨l, mode, hlocate, hget, -⟩ := read_eq_ok_iff.1 h
  obtain ⟨-, hne, hfollow, hslash⟩ := locate_eq_ok_iff.1 hlocate
  have hfile : t.get? l ≠ some .directory := by simp [hget]
  have hends : Path.endsInSlash path = false :=
    Bool.eq_false_iff.2 fun hends => hfile (hslash hends)
  have hlast := Path.lastElement_ne_nil hne hends
  rw [Path.elements_eq_concat hlast] at hfollow
  obtain ⟨here, habove, hname⟩ := exists_of_follow_append hfollow
  exact ⟨here, hlast, habove, hlocate.trans (congrArg _ (eq_concat_of_follow habove hname hfile))⟩

/-- A file is not where another name in its directory is placed. -/
theorem locate_ne_of_sibling (h : t.read path = .ok data) (hplace : t.placeFor sibling = .ok there)
    (hfront : Path.upToSlash sibling = Path.upToSlash path) (hlast : Path.lastElement sibling ≠ [])
    (hne : Path.lastElement sibling ≠ Path.lastElement path) : t.locate path ≠ .ok there := by
  obtain ⟨here, -, habove, hlocate⟩ := exists_directory_of_read h
  obtain ⟨above, last, here', helements, habove', -, rfl⟩ := placeFor_eq_ok_iff.1 hplace
  rw [Path.elements_eq_concat hlast, hfront] at helements
  obtain ⟨rfl, hlast'⟩ := List.append_singleton_inj.1 helements
  rw [habove] at habove'
  cases habove'
  intro hsame
  rw [hlocate, Except.ok.injEq, List.append_singleton_inj] at hsame
  exact hne (hlast'.trans (congrArg Name.text hsame.2).symm)

end Tree

/-- A source that is not its own usual output is read as before, once it is compiled into that. -/
theorem Volume.exists_read_source {v : Volume} {bound : Option Nat} {source : Bytes} {digits : Nat}
    (hv : v.Fresh) (h : (v.compileFile bound source (Path.outputName source) digits).2 = none)
    (hne : Path.outputName source ≠ source) :
    ∃ data, v.tree.read source = .ok data ∧
      (v.compileFile bound source (Path.outputName source) digits).1.tree.read source =
        .ok data := by
  obtain ⟨data, code, there, hread, -, hplace, -, hthere, hfree, -, htree, -⟩ :=
    exists_replaced hv h
  obtain ⟨front, base, extension, hparts⟩ := Path.exists_parts source
  have hsame : Path.lastElement (Path.outputName source) ≠ Path.lastElement source := by
    intro hsame
    rw [hparts.lastElement_eq, hparts.output.lastElement_eq] at hsame
    exact hne (hparts.outputName_eq.trans (hsame ▸ hparts.eq_append.symm))
  have hlocate := Tree.locate_ne_of_sibling hread hplace
    (hparts.output.upToSlash_eq.trans hparts.upToSlash_eq.symm)
    (by simp [hparts.output.lastElement_eq, bytes]) hsame
  rw [htree]
  exact ⟨data, hread, Tree.read_put_of_ne hthere hfree _ hread hlocate⟩

namespace Command

/-- The usual output of a source is beside it, under its base and the extension of C. That of an
output is the output itself, and a path is its own output exactly if it has that extension. Two
paths have one output exactly if they are the same up to their extensions. So the command, unless
another output is given, does not change the source that it compiles, if the source has not the
extension of its output. -/
theorem outputName_beside_source (p : Bytes) :
    (∃ front base extension, Path.Parts p front base extension ∧
      Path.outputName p = front ++ (base ++ bytes ".c") ∧
      Path.Parts (Path.outputName p) front base (bytes ".c") ∧
      (∀ front' base' extension', Path.Parts p front' base' extension' →
        front = front' ∧ base = base' ∧ extension = extension') ∧
      ∀ q front' base' extension', Path.Parts q front' base' extension' →
        (Path.outputName p = Path.outputName q ↔ front ++ base = front' ++ base')) ∧
    Path.outputName (Path.outputName p) = Path.outputName p ∧
    (Path.outputName p = p ↔ bytes ".c" <:+ p) ∧
    ∀ (host : Host) (arguments : List Bytes) (o : Options) (v : Volume), v.Fresh →
      parse .initial arguments = .ok (o, [p]) → o.version = false → o.emitTokens = false →
      o.output = [] → (run host arguments v).exit = 0 → ¬ bytes ".c" <:+ p →
        ∃ data, v.tree.read p = .ok data ∧
          (run host arguments v).volume.tree.read p = .ok data := by
  obtain ⟨front, base, extension, hparts⟩ := Path.exists_parts p
  refine ⟨⟨front, base, extension, hparts, hparts.outputName_eq, hparts.output,
    fun _ _ _ => hparts.unique, fun q front' base' extension' hparts' => ?_⟩, ?_,
    Path.outputName_eq_self_iff, ?_⟩
  · rw [hparts.outputName_eq, hparts'.outputName_eq, ← List.append_assoc, ← List.append_assoc]
    exact List.append_left_inj _
  · exact hparts.output.outputName_eq.trans hparts.outputName_eq.symm
  · intro host arguments o v hv hparse hversion htokens houtput hexit hne
    rw [run_of_parse host v hparse hversion htokens] at hexit ⊢
    obtain ⟨stages, hstages⟩ := exists_traced host o p v
    rw [destination, if_pos houtput] at hstages
    rw [hstages] at hexit ⊢
    have hnone : (v.compileFile (Depth.ofSetting o.maxDepth) p (Path.outputName p)
        host.digits).2 = none := by
      simpa [Result.traced, Result.ofCompilation] using hexit
    exact Volume.exists_read_source hv hnone fun h => hne (Path.outputName_eq_self_iff.1 h)

/-- Dots before the last slash are no extension, and of two dots behind it the last one counts. -/
theorem outputName_beside_source_of_two_dots :
    let file := bytes "d.x/a.b.t"
    let data := bytes "LET a = 1"
    let v : Volume := ⟨⟨[([⟨bytes "d.x", none⟩], .directory),
      ([⟨bytes "d.x", none⟩, ⟨bytes "a.b.t", none⟩], .file data 0o600)]⟩, 0o022, 0, []⟩
    v.Fresh ∧ Path.outputName file = bytes "d.x/a.b.c" ∧
      (run ⟨[], [], true, 19⟩ [file] v).exit = 0 ∧ v.tree.read file = .ok data ∧
      (run ⟨[], [], true, 19⟩ [file] v).volume.tree.read file = .ok data := by
  intro file data v
  have hv : v.Fresh := by simp [Volume.Fresh, v]
  have hexit : (run ⟨[], [], true, 19⟩ [file] v).exit = 0 := by decide +kernel
  have hread : v.tree.read file = .ok data := rfl
  obtain ⟨-, -, -, hkept⟩ := outputName_beside_source file
  obtain ⟨data', hread', hkept⟩ :=
    hkept ⟨[], [], true, 19⟩ [file] .initial v hv rfl rfl rfl rfl hexit (by decide)
  rw [hread, Except.ok.injEq] at hread'
  subst hread'
  exact ⟨hv, by decide, hexit, hread, hkept⟩

end Command

end Teeny
