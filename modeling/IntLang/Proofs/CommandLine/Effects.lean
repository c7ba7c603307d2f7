import IntLang.Proofs.CommandLine.Arguments
import IntLang.Proofs.CommandLine.DefaultOutput
import IntLang.Proofs.CommandLine.FileTree
/-!
What a run of the program does to the files and what it prints. A run that fails, at whatever
stage, leaves the files as they are; one that succeeds writes its assembly text and nothing else.
What is printed on the way depends on the stages that the source passes, not on how the run ends.
-/
namespace IntLang.CommandLine

/-- The listing of a source, if it is asked for and the source is accepted. -/
def Options.listed (options : Options) (source : String) : String :=
  match options.printIr, Ir.Routine.ofSource source with
  | true, .ok routine => routine.listing
  | _, _ => ""

namespace Libraries

/-- What is documented of putting trees into text: data that is made of records, lists, numbers and
names alone always has one. -/
def Renders (k : Libraries) : Prop := ∀ program, ∃ text, k.render program = .ok text

theorem ordinary_renders : ordinary.Renders := fun _ => ⟨_, rfl⟩

/-- The lines of the tree of a source, if it is asked for and the source has one. -/
def dumped (k : Libraries) (options : Options) (source : String) : Except String String :=
  match options.dumpTree, Program.ofSource source with
  | true, .ok program => (k.render program).map (· ++ "\n")
  | _, _ => .ok ""

variable {k : Libraries} {options : Options} {source : String}

theorem dump_eq {program : Program} (parsed : Program.ofSource source = .ok program) :
    k.dump options program = (k.dumped options source).mapError .rendering := by
  rw [dump, dumped, parsed]
  cases options.dumpTree with
  | false => rfl
  | true =>
      dsimp only
      cases k.render program <;> rfl

/-- A tree that cannot be put into text ends the report. Otherwise it has the texts that are asked
for, as far as there are any, and what the compilation gives. -/
theorem report_eq (k : Libraries) (options : Options) (source : String) :
    k.report options source = match k.dumped options source with
      | .error message => ⟨"", .error (.rendering message)⟩
      | .ok tree => ⟨tree ++ options.listed source, compile options.annotate source⟩ := by
  rw [report, Options.listed, compile, Ir.Routine.ofSource]
  cases parsed : Program.ofSource source with
  | error e =>
      rw [dumped, parsed]
      cases options.dumpTree <;> cases options.printIr <;> rfl
  | ok program =>
      dsimp only
      rw [dump_eq parsed]
      cases k.dumped options source with
      | error message => rfl
      | ok tree =>
          cases Ir.Routine.ofProgram program with
          | error e => cases options.printIr <;> simp [Except.map, Except.mapError]
          | ok routine => cases options.printIr <;> simp [Except.map, Except.mapError]

theorem Renders.dumped (renders : k.Renders) (options : Options) (source : String) :
    ∃ tree, k.dumped options source = .ok tree := by
  rw [Libraries.dumped]
  split
  case h_1 program _ _ =>
    obtain ⟨text, rendered⟩ := renders program
    exact ⟨text ++ "\n", by rw [rendered]; rfl⟩
  case h_2 => exact ⟨"", rfl⟩

end Libraries

theorem run_bind {α β : Type} (x : StateM FileTree α) (f : α → StateM FileTree β) (t : FileTree) :
    (x >>= f).run t = (f (x.run t).1).run (x.run t).2 := rfl

theorem Files.read_run (path : String) (t : FileTree) :
    (ofTree.read path).run t = (t.read path, t) := rfl

theorem Files.write_run (path text : String) (t : FileTree) :
    (ofTree.write path text).run t = match t.write path text with
      | .ok t' => (.ok (), t')
      | .error e => (.error e, t) := rfl

namespace Invocation

/-- The output is the path that is given, or else the input with the extension `s`. -/
inductive Target (i : Invocation) : String → Prop
  | given {path} : i.output? = some path → Target i path
  | default {path} : i.output? = none → Extended i.input.toList path.toList → Target i path

theorem target_output (i : Invocation) : i.Target i.output := by
  rw [output]
  cases given : i.output? with
  | none => exact .default given (extended_defaultOutput i.input)
  | some path => exact .given given

/-- What ends a compilation on a tree without an output. -/
inductive Fails (k : Libraries) (i : Invocation) (t : FileTree) : CompileError → Prop
  | unread {e} : t.read i.input = .error e → Fails k i t (.file e.message)
  | unrendered {source message} : t.read i.input = .ok source →
      k.dumped i.options source = .error message → Fails k i t (.rendering message)
  | rejected {source tree e} : t.read i.input = .ok source →
      k.dumped i.options source = .ok tree → compile i.options.annotate source = .error e →
      Fails k i t e
  | unwritten {source tree text e} : t.read i.input = .ok source →
      k.dumped i.options source = .ok tree → compile i.options.annotate source = .ok text →
      t.write i.output text = .error e → Fails k i t (.file e.message)

/-- What a compilation that ends with an output makes of a tree. -/
inductive Succeeds (k : Libraries) (i : Invocation) (t t' : FileTree) : Prop
  | wrote {source tree text} : t.read i.input = .ok source →
      k.dumped i.options source = .ok tree → compile i.options.annotate source = .ok text →
      t.write i.output text = .ok t' → Succeeds k i t t'

def shown (k : Libraries) (i : Invocation) (t : FileTree) : String :=
  match t.read i.input with
  | .error _ => ""
  | .ok source =>
      match k.dumped i.options source with
      | .error _ => ""
      | .ok tree => tree ++ i.options.listed source

variable {k : Libraries} {i i' : Invocation} {t t' : FileTree} {o : Outcome} {e : CompileError}

/-- How a compilation goes on when its source is read: with a text to write, or with what is wrong
in the source. -/
def conclude (k : Libraries) (i : Invocation) (t : FileTree) :
    Except CompileError String → Outcome × FileTree
  | .error e => (.failure (i.shown k t) e, t)
  | .ok text =>
      match t.write i.output text with
      | .error e => (.failure (i.shown k t) (.file e.message), t)
      | .ok t' => (⟨0, i.shown k t, ""⟩, t')

theorem run_of_read {source tree : String} (read : t.read i.input = .ok source)
    (dumped : k.dumped i.options source = .ok tree) :
    (i.perform k Files.ofTree).run t =
      i.conclude k t (compile i.options.annotate source) := by
  have shown : i.shown k t = tree ++ i.options.listed source := by
    rw [shown, read]
    dsimp only
    rw [dumped]
  rw [perform, run_bind, Files.read_run, read]
  dsimp only
  rw [Libraries.report_eq, dumped]
  dsimp only
  rw [← shown]
  cases compile i.options.annotate source with
  | error e => rfl
  | ok text =>
      dsimp only
      rw [run_bind, Files.write_run, conclude]
      cases t.write i.output text <;> rfl

theorem Fails.run (h : i.Fails k t e) :
    (i.perform k Files.ofTree).run t = (.failure (i.shown k t) e, t) := by
  cases h with
  | unread read =>
      rw [perform, run_bind, Files.read_run, shown, read]
      rfl
  | unrendered read dumped =>
      rw [perform, run_bind, Files.read_run, shown, read]
      dsimp only
      rw [Libraries.report_eq, dumped]
      rfl
  | rejected read dumped compiled => rw [run_of_read read dumped, compiled, conclude]
  | unwritten read dumped compiled written =>
      rw [run_of_read read dumped, compiled, conclude, written]

theorem Succeeds.run (h : i.Succeeds k t t') :
    (i.perform k Files.ofTree).run t = (⟨0, i.shown k t, ""⟩, t') := by
  obtain ⟨read, dumped, compiled, written⟩ := h
  rw [run_of_read read dumped, compiled, conclude, written]

theorem Succeeds.not_fails (h : i.Succeeds k t t') : ¬i.Fails k t e := by
  intro fails
  cases congrArg (fun ran => ran.1.status) (h.run.symm.trans fails.run)

theorem fails_or_succeeds (k : Libraries) (i : Invocation) (t : FileTree) :
    (∃ e, i.Fails k t e) ∨ ∃ t', i.Succeeds k t t' := by
  cases read : t.read i.input with
  | error e => exact .inl ⟨_, .unread read⟩
  | ok source =>
      cases dumped : k.dumped i.options source with
      | error message => exact .inl ⟨_, .unrendered read dumped⟩
      | ok tree =>
          cases compiled : compile i.options.annotate source with
          | error e => exact .inl ⟨_, .rejected read dumped compiled⟩
          | ok text =>
              cases written : t.write i.output text with
              | error e => exact .inl ⟨_, .unwritten read dumped compiled written⟩
              | ok t' => exact .inr ⟨t', .wrote read dumped compiled written⟩

/-- What a run of a compilation does: the outcome, and what becomes of the tree. -/
structure Effects (k : Libraries) (i : Invocation) (t : FileTree) (o : Outcome) (t' : FileTree) :
    Prop where
  target : i.Target i.output
  /-- The run prints what is asked for, as far as the source gets. -/
  printed : o.printed = i.shown k t
  /-- A run that fails leaves the tree as it is. -/
  fails : ∀ e, i.Fails k t e → o.status = 1 ∧ o.complaint = e.message ++ "\n" ∧ t' = t
  /-- Any other run has written the assembly text, and nothing else. -/
  succeeds : (¬∃ e, i.Fails k t e) → o.status = 0 ∧ o.complaint = "" ∧
    ∃ source text l, t.read i.input = .ok source ∧
      compile i.options.annotate source = .ok text ∧ t.Wrote i.output text l t'

theorem Fails.effects (h : i.Fails k t e) : i.Effects k t (.failure (i.shown k t) e) t where
  target := i.target_output
  printed := rfl
  fails _ h' :=
    ⟨rfl, congrArg (fun ran => ran.1.complaint) (h.run.symm.trans h'.run), rfl⟩
  succeeds never := absurd ⟨e, h⟩ never

theorem Succeeds.effects (h : i.Succeeds k t t') : i.Effects k t ⟨0, i.shown k t, ""⟩ t' where
  target := i.target_output
  printed := rfl
  fails e fails := absurd fails h.not_fails
  succeeds _ := by
    obtain ⟨read, -, compiled, written⟩ := h
    obtain ⟨l, wrote⟩ := FileTree.wrote_of_write written
    exact ⟨rfl, rfl, _, _, l, read, compiled, wrote⟩

/-- Two compilations of one input to one output, both with comments or both without. -/
structure Alike (i i' : Invocation) : Prop where
  input : i'.input = i.input
  output? : i'.output? = i.output?
  annotate : i'.options.annotate = i.options.annotate

namespace Alike

theorem output (alike : i.Alike i') : i'.output = i.output := by
  rw [Invocation.output, Invocation.output, alike.output?, alike.input]

theorem fails (alike : i.Alike i') (renders : k.Renders) (h : i.Fails k t e) :
    i'.Fails k t e := by
  cases h with
  | unread read => exact .unread (alike.input ▸ read)
  | unrendered read dumped =>
      obtain ⟨tree, ok⟩ := renders.dumped i.options _
      cases dumped.symm.trans ok
  | rejected read _ compiled =>
      obtain ⟨tree, dumped⟩ := renders.dumped i'.options _
      exact .rejected (alike.input ▸ read) dumped (alike.annotate ▸ compiled)
  | unwritten read _ compiled written =>
      obtain ⟨tree, dumped⟩ := renders.dumped i'.options _
      exact .unwritten (alike.input ▸ read) dumped (alike.annotate ▸ compiled)
        (alike.output ▸ written)

theorem succeeds (alike : i.Alike i') (renders : k.Renders) (h : i.Succeeds k t t') :
    i'.Succeeds k t t' := by
  obtain ⟨read, -, compiled, written⟩ := h
  obtain ⟨tree, dumped⟩ := renders.dumped i'.options _
  exact .wrote (alike.input ▸ read) dumped (alike.annotate ▸ compiled) (alike.output ▸ written)

end Alike

/-- Arguments with the same paths ask for one output, and the flags that are only about what is
printed make no difference to it. -/
theorem Asked.alike {args args' : Arguments} (asked : i.Asked args) (asked' : i'.Asked args')
    (paths : args'.paths = args.paths)
    (annotate : "--annotate" ∈ args'.options ↔ "--annotate" ∈ args.options) : i.Alike i' := by
  rw [asked.paths, asked'.paths] at paths
  obtain ⟨input, outputs⟩ := List.cons.inj paths
  exact ⟨input, by simpa using congrArg List.head? outputs,
    Bool.eq_iff_iff.mpr (asked'.annotate.trans (annotate.trans asked.annotate.symm))⟩

end Invocation

theorem Libraries.perform_of_parse {k : Libraries} {args : Arguments} {i : Invocation}
    (parsed : k.parse args = .ok i) {m : Type → Type} [Monad m] (files : Files m) :
    k.perform files args = i.perform k files := by
  rw [perform, parsed]

/-- Well-formed arguments have, on every tree, the effects of the compilation that they ask for.
Where every tree has a text, other arguments with the same paths do the same to the files and end
with the same status and complaint, if both ask for comments or neither does. -/
theorem compilation_effects {k : Libraries} (reads : k.Reads) {args : Arguments}
    (wellFormed : args.WellFormed) (t : FileTree) :
    ∃ i : Invocation, i.Asked args ∧ ∃ o t', (k.perform Files.ofTree args).run t = (o, t') ∧
      i.Effects k t o t' ∧ (k.Renders → ∀ args' : Arguments, args'.WellFormed →
        args'.paths = args.paths →
        ("--annotate" ∈ args'.options ↔ "--annotate" ∈ args.options) →
        ∃ o', (k.perform Files.ofTree args').run t = (o', t') ∧ o'.status = o.status ∧
          o'.complaint = o.complaint) := by
  obtain ⟨i, parsed, asked⟩ := reads args wellFormed
  refine ⟨i, asked, ?_⟩
  rw [Libraries.perform_of_parse parsed]
  rcases i.fails_or_succeeds k t with ⟨e, fails⟩ | ⟨t', succeeds⟩
  · refine ⟨_, _, fails.run, fails.effects, ?_⟩
    intro renders args' wellFormed' paths annotate
    obtain ⟨i', parsed', asked'⟩ := reads args' wellFormed'
    rw [Libraries.perform_of_parse parsed']
    exact ⟨_, ((asked.alike asked' paths annotate).fails renders fails).run, rfl, rfl⟩
  · refine ⟨_, _, succeeds.run, succeeds.effects, ?_⟩
    intro renders args' wellFormed' paths annotate
    obtain ⟨i', parsed', asked'⟩ := reads args' wellFormed'
    rw [Libraries.perform_of_parse parsed']
    exact ⟨_, ((asked.alike asked' paths annotate).succeeds renders succeeds).run, rfl, rfl⟩

def oneFile (name text : String) : FileTree :=
  ⟨["work"], [(["work"], .directory), (["work", name], .file text.toUTF8)]⟩

/-- Both texts are shown, and the output is beside the input. Without the flags the run does the
same to the files. -/
theorem shownCompilation_effects :
    let args : Arguments := ["--dump-ast", "a.c", "--print-ir", "-vv"]
    let source := "int main() \x7b return 6; \x7d"
    let program : Program := ⟨"main", [.ret ⟨1, 14⟩ (.literal ⟨1, 21⟩ 6)], .start⟩
    let listing := "main: ; 0 locals\n  push 6\n  ret\n  push 0\n"
    let t := oneFile "a.c" source
    args.WellFormed ∧ ∃ o t' text, (perform Files.ofTree args).run t = (o, t') ∧ o.status = 0 ∧
      o.printed = program.document.pretty ++ "\n" ++ listing ∧ compile false source = .ok text ∧
      t'.node? ["work", "a.s"] = some (.file text.toUTF8) ∧
      t'.node? ["work", "a.c"] = some (.file source.toUTF8) ∧
      ∃ o', (perform Files.ofTree ["a.c"]).run t = (o', t') ∧ o'.status = 0 := by
  intro args source program listing t
  have wellFormed : args.WellFormed := ⟨by decide, by decide, .inl rfl, by decide⟩
  have plain : Arguments.WellFormed ["a.c"] := ⟨by decide, by decide, .inl rfl, by decide⟩
  let i : Invocation := ⟨"a.c", none, ⟨true, true, false⟩⟩
  have asked : i.Asked args := ⟨rfl, by decide, by decide, by decide⟩
  have output : i.output = "a.s" := by decide
  have leads (name : String) (named : FileTree.isDots name = false)
      (short : name.utf8ByteSize ≤ FileTree.nameLimit)
      (routed : t.route name = .ok (["work"], [] ++ [name])) : t.Leads name ["work", name] :=
    .intro routed rfl named short
  have read : t.read i.input = .ok source := (leads "a.c" rfl (by decide) rfl).read rfl
  have parsed : Program.ofSource source = .ok program := by decide +kernel
  have dumped : Libraries.ordinary.dumped i.options source =
      .ok (program.document.pretty ++ "\n") := by
    rw [Libraries.dumped, parsed]
    rfl
  have listed : i.options.listed source = listing := by
    rw [Options.listed, Ir.Routine.ofSource, parsed]
    decide +kernel
  obtain ⟨text, compiled⟩ : ∃ text, compile false source = .ok text := by
    rw [compile, Ir.Routine.ofSource, parsed]
    exact ⟨_, rfl⟩
  obtain ⟨t', written⟩ : ∃ t', t.write i.output text = .ok t' := by
    rw [output]
    exact ⟨_, rfl⟩
  have succeeds : i.Succeeds Libraries.ordinary t t' := .wrote read dumped compiled written
  obtain ⟨i', asked', o, t', ran, effects, alike⟩ :=
    compilation_effects Libraries.ordinary_reads wellFormed t
  cases asked.unique asked'
  obtain ⟨status, -, source', text', l, read', compiled', wrote⟩ :=
    effects.succeeds fun ⟨_, fails⟩ => succeeds.not_fails fails
  cases read.symm.trans read'
  cases compiled.symm.trans compiled'
  rw [output] at wrote
  cases wrote.leads.unique (leads "a.s" rfl (by decide) rfl)
  have shown : o.printed = program.document.pretty ++ "\n" ++ listing := by
    rw [effects.printed, Invocation.shown, read]
    dsimp only
    rw [dumped, listed]
  have stays : t'.node? ["work", "a.c"] = some (.file source.toUTF8) := by
    rw [wrote.elsewhere _ (by decide)]
    rfl
  obtain ⟨o', ran', status', -⟩ :=
    alike Libraries.ordinary_renders ["a.c"] plain rfl (by decide)
  exact ⟨wellFormed, o, t', text, ran, status, shown, compiled, (wrote.file nofun).1, stays,
    o', ran', status'.trans status⟩

end IntLang.CommandLine
