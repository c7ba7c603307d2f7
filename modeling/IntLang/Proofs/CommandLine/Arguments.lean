import Mathlib.Data.List.Basic
import Mathlib.Data.List.Count
import Mathlib.Data.List.Nodup
import IntLang.CommandLine.Session
/-!
Which arguments are well formed and what they ask for, as the options are documented. The order of
the arguments does not matter, apart from that of the two paths; what stands behind `--` is a path
whatever it looks like.
-/
namespace IntLang.CommandLine

abbrev Arguments := List String

namespace Arguments

/-- A dash alone is a path. -/
def isOption (a : String) : Bool :=
  match a.toList with
  | '-' :: _ :: _ => true
  | _ => false

/-- `--verbose`, or `-v` with the letter repeated. -/
def isVerbose (a : String) : Bool :=
  a = "--verbose" ||
    match a.toList with
    | '-' :: letters => letters.all (· = 'v')
    | _ => false

def options (args : Arguments) : List String :=
  (args.takeWhile (· ≠ "--")).filter isOption

def paths (args : Arguments) : List String :=
  (args.takeWhile (· ≠ "--")).filter (!isOption ·) ++ (args.dropWhile (· ≠ "--")).tail

/-- The arguments ask for a compilation: no option is unknown, no flag is repeated, and there is an
input and at most one output. -/
structure WellFormed (args : Arguments) : Prop where
  known : ∀ a ∈ args.options, a ∈ ["--print-ir", "--dump-ast", "--annotate"] ∨ isVerbose a = true
  once : ∀ flag ∈ ["--print-ir", "--dump-ast", "--annotate"], args.options.count flag ≤ 1
  counted : args.paths.length = 1 ∨ args.paths.length = 2
  nonempty : ∀ path ∈ args.paths, path ≠ ""

section Cons

variable {a : String} {rest : Arguments}

theorem options_end : options ("--" :: rest) = [] := rfl

theorem paths_end : paths ("--" :: rest) = rest := rfl

theorem options_option (goes_on : a ≠ "--") (h : isOption a = true) :
    options (a :: rest) = a :: options rest := by
  simp [options, goes_on, h]

theorem paths_option (goes_on : a ≠ "--") (h : isOption a = true) :
    paths (a :: rest) = paths rest := by
  simp [paths, goes_on, h]

theorem options_path (goes_on : a ≠ "--") (h : isOption a = false) :
    options (a :: rest) = options rest := by
  simp [options, goes_on, h]

theorem paths_path (goes_on : a ≠ "--") (h : isOption a = false) :
    paths (a :: rest) = a :: paths rest := by
  simp [paths, goes_on, h]

end Cons

end Arguments

structure Invocation.Asked (i : Invocation) (args : Arguments) : Prop where
  paths : args.paths = i.input :: i.output?.toList
  printIr : i.options.printIr = true ↔ "--print-ir" ∈ args.options
  dumpTree : i.options.dumpTree = true ↔ "--dump-ast" ∈ args.options
  annotate : i.options.annotate = true ↔ "--annotate" ∈ args.options

theorem Invocation.Asked.unique {i i' : Invocation} {args : Arguments} (h : i.Asked args)
    (h' : i'.Asked args) : i = i' := by
  obtain ⟨input, output?, printIr, dumpTree, annotate⟩ := i
  obtain ⟨input', output?', printIr', dumpTree', annotate'⟩ := i'
  obtain ⟨rfl, outputs⟩ := List.cons.inj (h.paths.symm.trans h'.paths)
  cases (by simpa using congrArg List.head? outputs : output? = output?')
  cases Bool.eq_iff_iff.mpr (h.printIr.trans h'.printIr.symm)
  cases Bool.eq_iff_iff.mpr (h.dumpTree.trans h'.dumpTree.symm)
  cases Bool.eq_iff_iff.mpr (h.annotate.trans h'.annotate.symm)
  rfl

/-- What is documented of the reading of arguments: well-formed ones are read as what they ask for.
Nothing is said of others, which may end the run in any way. -/
def Libraries.Reads (k : Libraries) : Prop :=
  ∀ args : Arguments, args.WellFormed → ∃ i, k.parse args = .ok i ∧ i.Asked args

namespace Reading

open Arguments

variable {r : Reading} {a : String} {rest : Arguments}

theorem letters_eq {letters : List Char} (h : letters.all (· = 'v') = true) :
    r.letters letters = .ok r := by
  induction letters with
  | nil => rfl
  | cons c rest ih =>
      rw [List.all_cons, Bool.and_eq_true, decide_eq_true_eq] at h
      obtain ⟨rfl, rest_eq⟩ := h
      exact ih rest_eq

theorem argument_verbose (option : isOption a = true) (verbose : isVerbose a = true) :
    r.argument a = .ok r := by
  rw [isVerbose, Bool.or_eq_true, decide_eq_true_eq] at verbose
  rcases verbose with rfl | verbose
  · rfl
  rw [isOption] at option
  rw [argument]
  split at option
  case h_2 => cases option
  case h_1 c rest letters =>
    rw [letters] at verbose ⊢
    have all : (c :: rest).all (· = 'v') = true := verbose
    obtain ⟨rfl, -⟩ : c = 'v' ∧ _ := by simpa using all
    exact letters_eq all

theorem argument_flag (flag : a ∈ flags) (new : a ∉ r.given) :
    r.argument a = .ok { r with given := r.given ++ [a] } := by
  have long : r.argument a = r.longOption a := by
    simp only [flags, List.mem_cons, List.not_mem_nil, or_false] at flag
    rcases flag with rfl | rfl | rfl <;> rfl
  rw [long, longOption, if_pos flag, if_neg new]

theorem argument_path (h : isOption a = false) : r.argument a = r.path a := by
  rw [isOption] at h
  rw [argument]
  split <;> simp_all

theorem path_eq (few : r.paths.length < 2) (named : a ≠ "") :
    r.path a = .ok { r with paths := r.paths ++ [a] } :=
  if_neg (not_or.mpr ⟨Nat.not_le.mpr few, named⟩)

/-- The reading goes on through the arguments without an interruption. -/
structure Fits (r : Reading) (args : Arguments) : Prop where
  known : ∀ a ∈ args.options, a ∈ flags ∨ isVerbose a = true
  once : (r.given ++ args.options.filter (· ∈ flags)).Nodup
  nonempty : ∀ path ∈ args.paths, path ≠ ""
  few : r.paths.length + args.paths.length ≤ 2

/-- The reading with the paths and the flags among the arguments. -/
def adding (r : Reading) (args : Arguments) : Reading :=
  ⟨r.paths ++ args.paths, r.given ++ args.options.filter (· ∈ flags)⟩

theorem Fits.path (h : r.Fits (a :: rest)) (goes_on : a ≠ "--") (option : isOption a = false) :
    ∃ r', r.argument a = .ok r' ∧ r'.Fits rest ∧ r'.adding rest = r.adding (a :: rest) := by
  obtain ⟨known, once, nonempty, few⟩ := h
  rw [options_path goes_on option] at known once
  rw [paths_path goes_on option] at nonempty few
  rw [List.length_cons] at few
  refine ⟨{ r with paths := r.paths ++ [a] }, ?_, ⟨known, once, ?_, ?_⟩, ?_⟩
  · rw [argument_path option, path_eq (by omega) (nonempty a List.mem_cons_self)]
  · exact fun path h => nonempty path (List.mem_cons_of_mem a h)
  · rw [List.length_append, List.length_singleton]
    omega
  · rw [adding, adding, options_path goes_on option, paths_path goes_on option,
      List.append_cons r.paths a rest.paths]

theorem Fits.option (h : r.Fits (a :: rest)) (goes_on : a ≠ "--") (option : isOption a = true) :
    ∃ r', r.argument a = .ok r' ∧ r'.Fits rest ∧ r'.adding rest = r.adding (a :: rest) := by
  obtain ⟨known, once, nonempty, few⟩ := h
  rw [options_option goes_on option] at known once
  rw [paths_option goes_on option] at nonempty few
  have known_rest b hb := known b (List.mem_cons_of_mem a hb)
  rw [adding, options_option goes_on option, paths_option goes_on option]
  rw [List.filter_cons] at once ⊢
  by_cases flag : a ∈ flags
  · rw [if_pos (decide_eq_true flag), List.append_cons] at once ⊢
    refine ⟨{ r with given := r.given ++ [a] }, argument_flag flag ?_,
      ⟨known_rest, once, nonempty, few⟩, rfl⟩
    have new := (List.nodup_append.mp once).1
    intro given
    exact (List.nodup_append.mp new).2.2 a given a List.mem_cons_self rfl
  · rw [if_neg (by simpa using flag)] at once ⊢
    have verbose := (known a List.mem_cons_self).resolve_left flag
    exact ⟨r, argument_verbose option verbose, ⟨known_rest, once, nonempty, few⟩, rfl⟩

/-- Behind `--` every argument is a path. -/
theorem foldlM_path {names : List String} (nonempty : ∀ path ∈ names, path ≠ "")
    (few : r.paths.length + names.length ≤ 2) :
    names.foldlM path r = .ok { r with paths := r.paths ++ names } := by
  induction names generalizing r with
  | nil =>
      rw [List.append_nil]
      rfl
  | cons a names ih =>
      rw [List.length_cons] at few
      rw [List.foldlM_cons, path_eq (by omega) (nonempty a List.mem_cons_self),
        List.append_cons r.paths a names]
      change names.foldlM path { r with paths := r.paths ++ [a] } = _
      refine ih (fun b hb => nonempty b (List.mem_cons_of_mem a hb)) ?_
      rw [List.length_append, List.length_singleton]
      omega

theorem Fits.arguments {args : Arguments} (h : r.Fits args) :
    r.arguments args = .ok (r.adding args) := by
  induction args generalizing r with
  | nil => simp [Reading.arguments, adding, options, Arguments.paths]
  | cons a rest ih =>
      rw [Reading.arguments]
      by_cases goes_on : a = "--"
      · subst goes_on
        have nonempty : ∀ path ∈ rest, path ≠ "" := h.nonempty
        have few : r.paths.length + rest.length ≤ 2 := h.few
        rw [if_pos rfl, foldlM_path nonempty few, adding, options_end, paths_end, List.filter_nil,
          List.append_nil]
      · rw [if_neg goes_on]
        obtain ⟨r', taken, fits, same⟩ : ∃ r', r.argument a = .ok r' ∧ r'.Fits rest ∧
            r'.adding rest = r.adding (a :: rest) := by
          cases option : isOption a with
          | true => exact h.option goes_on option
          | false => exact h.path goes_on option
        rw [taken, ← same]
        exact ih fits

end Reading

theorem Arguments.WellFormed.fits {args : Arguments} (h : args.WellFormed) :
    Reading.Fits ⟨[], []⟩ args where
  known := h.known
  once := by
    rw [List.nil_append, List.nodup_iff_count_le_one]
    intro a
    by_cases flag : a ∈ flags
    · exact Nat.le_trans (List.filter_sublist.count_le a) (h.once a flag)
    · rw [List.count_eq_zero_of_not_mem (by simp [flag])]
      exact Nat.zero_le 1
  nonempty := h.nonempty
  few := by rcases h.counted with one | two <;> simp [*]

theorem Libraries.ordinary_reads : ordinary.Reads := by
  intro args wellFormed
  have given (flag : String) (h : flag ∈ flags) :
      decide (flag ∈ [] ++ args.options.filter (· ∈ flags)) = true ↔ flag ∈ args.options := by
    simp [h]
  obtain ⟨input, rest, paths⟩ : ∃ input rest, args.paths = input :: rest := by
    cases paths : args.paths with
    | nil => cases wellFormed.counted <;> simp_all
    | cons input rest => exact ⟨input, rest, rfl⟩
  have single : rest.head?.toList = rest := by
    have counted := wellFormed.counted
    rw [paths] at counted
    match rest with
    | [] | [_] => rfl
    | _ :: _ :: _ => simp at counted
  change ∃ i, Invocation.ofArguments args = .ok i ∧ _
  rw [Invocation.ofArguments, wellFormed.fits.arguments, Reading.adding, paths]
  refine ⟨_, rfl, ?_, given _ ?_, given _ ?_, given _ ?_⟩
  · rw [paths, single]
  all_goals decide

end IntLang.CommandLine
