import Unegg.Cli

/-!
# Unegg.Cli.Spellings

Equivalent spellings of options.

Where an option may stand (`OptionPosition`), a cluster of short options reads as
its letters do one by one, and a value reads the same joined to its option, behind
an `=`, or as the next argument (`spellings_equivalent`).  What stands in front
of the position takes the same arguments whatever follows (`readArg_alone`,
`readArg_takes`), so it is enough to compare the two spellings where the parse
reaches them (`parseFrom_append`).
-/

namespace Unegg

open Prog Run

/-! ## spellings -/

/-- An option with a value. -/
inductive ValueOption where
  | outputDir
  | password
  deriving Repr, DecidableEq

namespace ValueOption

def letter : ValueOption → Char
  | outputDir => 'd'
  | password => 'P'

def name : ValueOption → String
  | outputDir => "output-dir"
  | password => "password"

def set (value : String) (s : CliArgs) : ValueOption → CliArgs
  | outputDir => { s with destDir := some value }
  | password => { s with password := some value }

end ValueOption

/-- The ways to give an option its value. -/
inductive ValueForm where
  /-- `-dDIR` -/
  | joined
  /-- `-d DIR` -/
  | separate
  /-- `--output-dir=DIR` -/
  | inline
  /-- `--output-dir DIR` -/
  | following
  deriving Repr, DecidableEq

def ValueForm.args (opt : ValueOption) (value : String) : ValueForm → List String
  | joined => [String.ofList ('-' :: opt.letter :: value.toList)]
  | separate => [String.ofList ['-', opt.letter], value]
  | inline => ["--" ++ opt.name ++ "=" ++ value]
  | following => ["--" ++ opt.name, value]

/-- The letters of options without a value. -/
def flagLetters : List Char := ['l', 'p', 'q', 'h', 'V']

/-- A cluster of short options: letters, and at the end perhaps an option joined to
its value. -/
structure ShortCluster where
  letters : List Char
  last : Option (ValueOption × String)
  flags : ∀ c ∈ letters, c ∈ flagLetters
  value_ne : ∀ p ∈ last, p.2 ≠ ""
  nonempty : letters ≠ [] ∨ last ≠ none

namespace ShortCluster

/-- The letters of the last option, and its value. -/
def tail : Option (ValueOption × String) → List Char
  | some (opt, value) => opt.letter :: value.toList
  | none => []

/-- The cluster as one argument. -/
def joined (k : ShortCluster) : String := String.ofList ('-' :: (k.letters ++ tail k.last))

/-- The same options, each by itself, with the value in any of its forms. -/
def separate (k : ShortCluster) (form : ValueForm) : List String :=
  k.letters.map (fun c => String.ofList ['-', c]) ++
    k.last.toList.flatMap fun p => form.args p.1 p.2

end ShortCluster

/-! ## positions -/

/-- The cluster ends in an option whose value is the next argument. -/
def endsOpen (cs : List Char) : Bool :=
  cs.dropWhile (· ∈ ['l', 'p', 'q']) = ['d'] || cs.dropWhile (· ∈ ['l', 'p', 'q']) = ['P']

/-- The argument is an option that takes the next argument as its value: a long
option without `=`, or a cluster that ends in `d` or `P`. -/
def takesNext (arg : String) : Bool :=
  match arg.toList with
  | '-' :: '-' :: long =>
    long = ValueOption.outputDir.name.toList || long = ValueOption.password.name.toList
  | '-' :: cs => endsOpen cs
  | _ => false

/-- Behind these arguments an option may stand: there is no `--` among them, but as the
value of an option, and the last one does not take the next argument. -/
def OptionPosition : List String → Bool
  | [] => true
  | [arg] => arg ≠ "--" && !takesNext arg
  | arg :: value :: rest =>
    arg ≠ "--" &&
      if takesNext arg then OptionPosition rest else OptionPosition (value :: rest)

/-! ## reading goes through the arguments once -/

/-- What is left of the arguments gets no longer. -/
def Shorter (args args' : List String) : Prop := args'.length ≤ args.length

instance : Std.Refl Shorter := ⟨fun _ => le_rfl⟩

instance : IsTrans (List String) Shorter := ⟨fun _ _ _ h h' => le_trans h' h⟩

/-- The value of an option is taken off the arguments. -/
theorem shorter_nextArg : Run.Moves Shorter nextArg := by
  rintro args _ _ ⟨⟩
  simp [Shorter]

theorem shorter_nextArgOr (msg : String) : Run.Moves Shorter (nextArgOr msg) := by
  refine .bind shorter_nextArg fun arg => ?_
  cases arg with
  | none => exact .throw _
  | some arg => exact .pure _

/-- A long option takes one argument more at most. -/
theorem shorter_longOption (long : List Char) (s : CliArgs) :
    Run.Moves Shorter (longOption long s) := by
  have hvalue : ∀ name inline what, Run.Moves Shorter (longValue name inline what) := by
    intro name inline what
    cases inline with
    | none => exact shorter_nextArgOr _
    | some value => exact .pure _
  rw [longOption]
  exact .ite (.pure _) <| .ite (.pure _) <| .ite (.pure _) <|
    .ite (.bind (hvalue _ _ _) fun _ => .pure _) <|
    .ite (.bind (hvalue _ _ _) fun _ => .pure _) <|
    .ite (.throw _) <| .ite (.throw _) (.throw _)

/-- A cluster of letters takes one argument more at most. -/
theorem shorter_shortCluster (cs : List Char) (s : CliArgs) :
    Run.Moves Shorter (shortCluster cs s) := by
  induction cs generalizing s with
  | nil => exact .pure _
  | cons c cs ih =>
      rw [shortCluster]
      exact .ite (ih _) <| .ite (ih _) <| .ite (ih _) <| .ite (.throw _) <| .ite (.throw _) <|
        .ite (.bind (.ite (shorter_nextArgOr _) (.pure _)) fun _ => .pure _) (.throw _)

/-- Reading an argument never puts one back. -/
theorem shorter_readArg (arg : String) (s : CliArgs) : Run.Moves Shorter (readArg arg s) :=
  .ite (.pure _) <| .ite (.pure _) <| .ite (shorter_longOption _ s) (shorter_shortCluster _ s)

/-- A pass reads the first argument and goes on with the rest. -/
theorem argStep_cons (arg : String) (rest : List String) (s : CliArgs) :
    (argStep s).run (arg :: rest) = (readArg arg s >>= fun s => return .next s).run rest := by
  rw [argStep, bind_of_ok (show nextArg.run (arg :: rest) = (.ok (some arg), rest) from rfl)]

/-- A pass that goes on has taken an argument. -/
theorem argStep_next {s s' : CliArgs} {args args' : List String}
    (h : (argStep s).run args = (.ok (.next s'), args')) : args'.length < args.length := by
  cases args with
  | nil => cases h
  | cons arg rest =>
      rw [argStep_cons, bind_ok] at h
      obtain ⟨s₁, rest₁, hread, h⟩ := h
      cases h
      exact Nat.lt_succ_of_le (shorter_readArg arg s _ _ _ hread)

/-- The parse of some arguments, behind others. -/
def parseFrom (s : CliArgs) (args : List String) : Outcome CliStop CliArgs :=
  ((loop argStep (args.length + 1) s).run args).1

/-- The parse of what an argument leaves. -/
def parseRest : Outcome CliStop CliArgs × List String → Outcome CliStop CliArgs
  | (.ok s, args) => parseFrom s args
  | (o, _) => o

/-- The arguments behind the first are read from the state it leaves. -/
theorem parseFrom_cons (s : CliArgs) (arg : String) (rest : List String) :
    parseFrom s (arg :: rest) = parseRest ((readArg arg s).run rest) := by
  rw [parseFrom, loop, bind_run, argStep_cons, bind_run]
  rcases hread : (readArg arg s).run rest with ⟨s' | e | _ | _, rest'⟩
  case ok =>
    have hle : rest'.length ≤ rest.length := shorter_readArg arg s _ _ _ hread
    refine congrArg Prod.fst (loop_bound (fun _ args => args.length) (fun _ _ _ _ h => ?_) ?_ ?_)
    · exact argStep_next h
    · exact Nat.lt_succ_of_le hle
    · exact Nat.lt_succ_self _
  all_goals rfl

/-- Nothing else of the arguments is seen. -/
theorem parseArgs_congr {prog : String} {args args' : List String}
    (h : parseFrom {} args = parseFrom {} args') :
    (parseArgs.run (prog :: args)).1 = (parseArgs.run (prog :: args')).1 := by
  have hrun : ∀ args, (parseArgs.run (prog :: args)).1 =
      match parseFrom {} args with
      | .ok s => ((ofExcept s.toCli : ArgParser Cli).run []).1
      | .err e => .err e
      | .panic => .panic
      | .hang => .hang := by
    intro args
    rw [parseArgs, bind_of_ok (show nextArg.run (prog :: args) = (.ok (some prog), args) from rfl),
      bind_of_ok (get_run args), bind_run, parseFrom]
    rcases (loop argStep (args.length + 1) {}).run args with ⟨s | e | _ | _, rest⟩
    case ok =>
      dsimp only
      cases s.toCli <;> rfl
    all_goals rfl
  rw [hrun, hrun, h]

/-! ## the arguments in front -/

/-- Reading does not depend on the arguments behind, and options go on. -/
def Alone (m : ArgParser CliArgs) : Prop :=
  ∃ o, (∀ rest, m.run rest = (o, rest)) ∧ ∀ s, o = .ok s → s.optionsDone = false

/-- A state that still takes options is one an argument may leave alone. -/
theorem Alone.pure {s : CliArgs} (h : s.optionsDone = false) : Alone (pure s) := by
  refine ⟨.ok s, fun _ => rfl, fun s' hs => ?_⟩
  cases hs
  exact h

/-- An error needs no further argument either. -/
theorem Alone.throw (e : CliStop) : Alone (Run.throw e) :=
  ⟨.err e, fun _ => rfl, fun _ hs => by cases hs⟩

/-- Reading takes the next argument, whatever it is, and options go on. -/
def Takes (m : ArgParser CliArgs) : Prop :=
  ∀ value, ∃ s, (∀ rest, m.run (value :: rest) = (.ok s, rest)) ∧ s.optionsDone = false

/-- `l`, `p` and `q` set a flag. -/
theorem shortCluster_flag {c : Char} (hc : c ∈ ['l', 'p', 'q']) (s : CliArgs) :
    ∃ s', s'.optionsDone = s.optionsDone ∧ ∀ cs, shortCluster (c :: cs) s = shortCluster cs s' := by
  simp only [List.mem_cons, List.not_mem_nil, or_false] at hc
  obtain rfl | rfl | rfl := hc
  · exact ⟨{ s with list := true }, rfl, fun cs => rfl⟩
  · exact ⟨{ s with pipe := true }, rfl, fun cs => rfl⟩
  · exact ⟨{ s with quiet := true }, rfl, fun cs => rfl⟩

/-- `h` and `V` leave the process. -/
theorem shortCluster_stop {c : Char} (hc : c ∈ ['h', 'V']) :
    ∃ e, ∀ cs s, shortCluster (c :: cs) s = Run.throw e := by
  simp only [List.mem_cons, List.not_mem_nil, or_false] at hc
  obtain rfl | rfl := hc
  · exact ⟨.help, fun _ _ => rfl⟩
  · exact ⟨.version, fun _ _ => rfl⟩

/-- `d` and `P` have a value of their own, or take the next argument. -/
theorem shortCluster_value (opt : ValueOption) (cs : List Char) (s : CliArgs) :
    shortCluster (opt.letter :: cs) s =
      (if cs = [] then nextArgOr ("-" ++ opt.letter.toString ++ " requires an argument")
        else return String.ofList cs : ArgParser String) >>= fun value => return opt.set value s := by
  cases opt <;> rfl

/-- What a letter of a cluster can be. -/
theorem letter_cases (c : Char) :
    c ∈ ['l', 'p', 'q'] ∨ c ∈ ['h', 'V'] ∨ (∃ opt : ValueOption, c = opt.letter) ∨
      ∃ e, ∀ cs s, shortCluster (c :: cs) s = Run.throw e := by
  by_cases hflag : c ∈ ['l', 'p', 'q']
  · exact .inl hflag
  by_cases hstop : c ∈ ['h', 'V']
  · exact .inr (.inl hstop)
  by_cases hopt : c = 'd' ∨ c = 'P'
  · refine .inr (.inr (.inl ?_))
    obtain rfl | rfl := hopt
    · exact ⟨.outputDir, rfl⟩
    · exact ⟨.password, rfl⟩
  · refine .inr (.inr (.inr ⟨.error ("unknown option: -" ++ c.toString), fun cs s => ?_⟩))
    simp only [List.mem_cons, List.not_mem_nil, or_false, not_or] at hflag hstop
    rw [shortCluster, if_neg hflag.1, if_neg hflag.2.1, if_neg hflag.2.2, if_neg hstop.1,
      if_neg hstop.2, if_neg hopt]

/-- A flag does not end a cluster. -/
theorem endsOpen_flag {c : Char} (hc : c ∈ ['l', 'p', 'q']) (cs : List Char) :
    endsOpen (c :: cs) = endsOpen cs := by
  simp only [endsOpen, List.dropWhile_cons, hc, decide_true, if_true]

/-- The letter of a value option leaves the cluster open if it is the last. -/
theorem endsOpen_letter (opt : ValueOption) (cs : List Char) :
    endsOpen (opt.letter :: cs) = decide (cs = []) := by
  cases opt <;> simp [endsOpen, ValueOption.letter]

/-- A cluster that ends open begins with a flag, or is its value letter. -/
theorem endsOpen_ne_nil {c : Char} {cs : List Char} (h : endsOpen (c :: cs) = true) :
    c ∈ ['l', 'p', 'q'] ∨ ∃ opt : ValueOption, c = opt.letter ∧ cs = [] := by
  by_cases hc : c ∈ ['l', 'p', 'q']
  · exact .inl hc
  · right
    simp only [endsOpen, List.dropWhile_cons, hc, decide_false, Bool.false_eq_true, if_false,
      List.cons.injEq, Bool.or_eq_true, decide_eq_true_eq] at h
    obtain ⟨rfl, rfl⟩ | ⟨rfl, rfl⟩ := h
    · exact ⟨.outputDir, rfl, rfl⟩
    · exact ⟨.password, rfl, rfl⟩

/-- Setting a value does not end the options. -/
theorem ValueOption.set_optionsDone (opt : ValueOption) (value : String) (s : CliArgs) :
    (opt.set value s).optionsDone = s.optionsDone := by
  cases opt <;> rfl

/-- A cluster that does not end open reads no further argument. -/
theorem shortCluster_alone {cs : List Char} {s : CliArgs} (hs : s.optionsDone = false)
    (hcs : endsOpen cs = false) : Alone (shortCluster cs s) := by
  induction cs generalizing s with
  | nil => exact .pure hs
  | cons c cs ih =>
      obtain hc | hc | ⟨opt, rfl⟩ | ⟨e, he⟩ := letter_cases c
      · obtain ⟨s', hs', heq⟩ := shortCluster_flag hc s
        rw [heq]
        exact ih (hs'.trans hs) (endsOpen_flag hc cs ▸ hcs)
      · obtain ⟨e, he⟩ := shortCluster_stop hc
        rw [he]
        exact .throw e
      · rw [endsOpen_letter, decide_eq_false_iff_not] at hcs
        rw [shortCluster_value, if_neg hcs, pure_bind]
        exact .pure ((opt.set_optionsDone _ s).trans hs)
      · rw [he]
        exact .throw e

/-- One that does takes exactly the next. -/
theorem shortCluster_takes {cs : List Char} {s : CliArgs} (hs : s.optionsDone = false)
    (hcs : endsOpen cs = true) : Takes (shortCluster cs s) := by
  intro value
  induction cs generalizing s with
  | nil => simp [endsOpen] at hcs
  | cons c cs ih =>
      obtain hc | ⟨opt, rfl, rfl⟩ := endsOpen_ne_nil hcs
      · obtain ⟨s', hs', heq⟩ := shortCluster_flag hc s
        rw [heq]
        exact ih (hs'.trans hs) (endsOpen_flag hc cs ▸ hcs)
      · refine ⟨opt.set value s, fun rest => ?_, (opt.set_optionsDone value s).trans hs⟩
        rw [shortCluster_value]
        rfl

/-! ### long options -/

/-- Without a `=` the whole of a long option is its name. -/
theorem splitOnce_of_ne {long : List Char} (h : '=' ∉ long) :
    splitOnce long = (String.ofList long, none) := by
  have hne : ∀ c ∈ long, decide (c ≠ '=') = true := by
    intro c hc
    rw [decide_eq_true_eq]
    rintro rfl
    exact h hc
  rw [splitOnce, List.takeWhile_eq_self_iff.mpr hne, List.dropWhile_eq_nil_iff.mpr hne]

/-- The first `=` ends the name. -/
theorem splitOnce_append {name : List Char} (h : '=' ∉ name) (value : List Char) :
    splitOnce (name ++ '=' :: value) = (String.ofList name, some (String.ofList value)) := by
  have hne : ∀ c ∈ name, decide (c ≠ '=') = true := by
    intro c hc
    rw [decide_eq_true_eq]
    rintro rfl
    exact h hc
  rw [splitOnce, List.takeWhile_append_of_pos hne, List.dropWhile_append_of_pos hne]
  simp

/-- A long option with a value. -/
theorem longOption_value {long : List Char} (opt : ValueOption) {inline : Option String}
    (h : splitOnce long = (opt.name, inline)) (s : CliArgs) :
    ∃ what, longOption long s =
      longValue opt.name inline what >>= fun value => return opt.set value s := by
  cases opt
  · refine ⟨"a directory", ?_⟩
    rw [longOption, h]
    rfl
  · refine ⟨"a password", ?_⟩
    rw [longOption, h]
    rfl

/-- A long option without a value is its name alone. -/
theorem splitOnce_none {long : List Char} {name : String} (h : splitOnce long = (name, none)) :
    long = name.toList := by
  have hin : '=' ∉ long := by
    intro hin
    obtain ⟨pre, post, rfl, hpre⟩ := List.eq_append_cons_of_mem hin
    rw [splitOnce_append hpre] at h
    cases h
  rw [splitOnce_of_ne hin] at h
  cases h
  exact String.toList_ofList.symm

/-- A long option that is not the bare name of a value option reads no further argument. -/
theorem longOption_alone {long : List Char} {s : CliArgs} (hs : s.optionsDone = false)
    (hlong : ∀ opt : ValueOption, long ≠ opt.name.toList) : Alone (longOption long s) := by
  rcases hsplit : splitOnce long with ⟨name, inline⟩
  by_cases hopt : ∃ opt : ValueOption, name = opt.name
  · obtain ⟨opt, rfl⟩ := hopt
    obtain ⟨what, heq⟩ := longOption_value opt hsplit s
    cases inline with
    | none => exact absurd (splitOnce_none hsplit) (hlong opt)
    | some value =>
        rw [heq, longValue, pure_bind]
        exact .pure ((opt.set_optionsDone value s).trans hs)
  · have hdir : name ≠ "output-dir" := fun h => hopt ⟨.outputDir, h⟩
    have hpass : name ≠ "password" := fun h => hopt ⟨.password, h⟩
    rw [longOption, hsplit]
    dsimp only
    split_ifs
    · exact .pure hs
    · exact .pure hs
    · exact .pure hs
    · exact .throw _
    · exact .throw _
    · exact .throw _

/-- The bare name of a value option takes exactly the next. -/
theorem longOption_takes {s : CliArgs} (hs : s.optionsDone = false) (opt : ValueOption) :
    Takes (longOption opt.name.toList s) := by
  intro value
  have hsplit : splitOnce opt.name.toList = (opt.name, none) := by
    rw [splitOnce_of_ne (by cases opt <;> decide), String.ofList_toList]
  obtain ⟨what, heq⟩ := longOption_value opt hsplit s
  refine ⟨opt.set value s, fun rest => ?_, (opt.set_optionsDone value s).trans hs⟩
  rw [heq]
  rfl

/-! ### one argument -/

section ReadArg

variable {arg : String} {s : CliArgs}

/-- What begins without a dash, or is the dash alone, is an archive or a filter. -/
theorem readArg_positional (h : arg = "-" ∨ arg.toList.head? ≠ some '-') :
    readArg arg s = return { s with positional := s.positional ++ [arg] } := by
  rw [readArg, if_pos (.inr h)]

/-- Two dashes begin a long option. -/
theorem readArg_long {long : List Char} (hs : s.optionsDone = false)
    (harg : arg.toList = '-' :: '-' :: long) (hlong : long ≠ []) :
    readArg arg s = longOption long s := by
  have hdash : arg ≠ "-" := by
    rintro rfl
    cases harg
  have hdashes : arg ≠ "--" := by
    rintro rfl
    cases harg
    exact hlong rfl
  rw [readArg, if_neg (by simp [hs, hdash, harg]), if_neg hdashes, harg]
  rfl

/-- One dash begins a cluster. -/
theorem readArg_cluster {c : Char} {cs : List Char} (hs : s.optionsDone = false)
    (harg : arg.toList = '-' :: c :: cs) (hc : c ≠ '-') :
    readArg arg s = shortCluster (c :: cs) s := by
  have hdash : arg ≠ "-" := by
    rintro rfl
    cases harg
  have hdashes : arg ≠ "--" := by
    rintro rfl
    cases harg
    exact hc rfl
  rw [readArg, if_neg (by simp [hs, hdash, harg]), if_neg hdashes, harg, if_neg (by simp [hc])]
  rfl

/-- The arguments, as `readArg` tells them apart. -/
theorem arg_cases (arg : String) :
    (arg = "-" ∨ arg.toList.head? ≠ some '-') ∨ arg = "--" ∨
      (∃ long, long ≠ [] ∧ arg.toList = '-' :: '-' :: long) ∨
      ∃ c cs, c ≠ '-' ∧ arg.toList = '-' :: c :: cs := by
  rcases harg : arg.toList with _ | ⟨c, _ | ⟨c', cs⟩⟩
  · exact .inl (.inr (by simp))
  · by_cases hc : c = '-'
    · subst hc
      exact .inl (.inl (String.toList_inj.mp harg))
    · exact .inl (.inr (by simpa using hc))
  · by_cases hc : c = '-'
    · subst hc
      by_cases hc' : c' = '-'
      · subst hc'
        by_cases hcs : cs = []
        · subst hcs
          exact .inr (.inl (String.toList_inj.mp harg))
        · exact .inr (.inr (.inl ⟨cs, hcs, rfl⟩))
      · exact .inr (.inr (.inr ⟨c', cs, hc', rfl⟩))
    · exact .inl (.inr (by simpa using hc))

/-- A long option takes the next argument if it is the bare name of a value option. -/
theorem takesNext_long {long : List Char} (harg : arg.toList = '-' :: '-' :: long) :
    takesNext arg = true ↔ ∃ opt : ValueOption, long = opt.name.toList := by
  have heq : takesNext arg = (decide (long = ValueOption.outputDir.name.toList) ||
      decide (long = ValueOption.password.name.toList)) := by
    rw [takesNext, harg]
    rfl
  rw [heq, Bool.or_eq_true, decide_eq_true_eq, decide_eq_true_eq]
  constructor
  · rintro (h | h)
    · exact ⟨_, h⟩
    · exact ⟨_, h⟩
  · rintro ⟨opt, h⟩
    cases opt
    · exact .inl h
    · exact .inr h

/-- A cluster takes the next argument if it ends open. -/
theorem takesNext_cluster {c : Char} {cs : List Char} (harg : arg.toList = '-' :: c :: cs)
    (hc : c ≠ '-') : takesNext arg = endsOpen (c :: cs) := by
  rw [takesNext, harg]
  simp [hc]

theorem takesNext_positional (h : arg = "-" ∨ arg.toList.head? ≠ some '-') :
    takesNext arg = false := by
  obtain rfl | h := h
  · rfl
  · rw [takesNext]
    rcases harg : arg.toList with _ | ⟨c, cs⟩
    · rfl
    · have hc : c ≠ '-' := by simpa [harg] using h
      simp [hc]

/-- An argument that takes no other reads none, but for the end of the options. -/
theorem readArg_alone (hs : s.optionsDone = false) (hend : arg ≠ "--")
    (htakes : takesNext arg = false) : Alone (readArg arg s) := by
  obtain hpos | hdashes | ⟨long, hne, harg⟩ | ⟨c, cs, hc, harg⟩ := arg_cases arg
  · rw [readArg_positional hpos]
    exact .pure hs
  · exact absurd hdashes hend
  · rw [readArg_long hs harg hne]
    refine longOption_alone hs fun opt hlong => ?_
    rw [(takesNext_long harg).mpr ⟨opt, hlong⟩] at htakes
    cases htakes
  · rw [readArg_cluster hs harg hc]
    exact shortCluster_alone hs (takesNext_cluster harg hc ▸ htakes)

/-- An argument that takes another takes one. -/
theorem readArg_takes (hs : s.optionsDone = false) (htakes : takesNext arg = true) :
    Takes (readArg arg s) := by
  obtain hpos | rfl | ⟨long, hne, harg⟩ | ⟨c, cs, hc, harg⟩ := arg_cases arg
  · rw [takesNext_positional hpos] at htakes
    cases htakes
  · exact absurd htakes (by decide)
  · rw [readArg_long hs harg hne]
    obtain ⟨opt, rfl⟩ := (takesNext_long harg).mp htakes
    exact longOption_takes hs opt
  · rw [readArg_cluster hs harg hc]
    exact shortCluster_takes hs (takesNext_cluster harg hc ▸ htakes)

end ReadArg

/-! ## the arguments behind -/

/-- Behind an argument that is read alone, what reads alike still does. -/
theorem parseFrom_alone {args args' : List String}
    (h : ∀ s, s.optionsDone = false → parseFrom s args = parseFrom s args') {arg : String}
    {s : CliArgs} (halone : Alone (readArg arg s)) :
    parseFrom s (arg :: args) = parseFrom s (arg :: args') := by
  obtain ⟨o, hrun, hdone⟩ := halone
  rw [parseFrom_cons, parseFrom_cons, hrun, hrun]
  cases o with
  | ok s' => exact h s' (hdone s' rfl)
  | err | panic | hang => rfl

/-- A parse sees of the arguments behind an option position only what parsing them
gives. -/
theorem parseFrom_append {before args args' : List String} (hbefore : OptionPosition before)
    (h : ∀ s, s.optionsDone = false → parseFrom s args = parseFrom s args') {s : CliArgs}
    (hs : s.optionsDone = false) : parseFrom s (before ++ args) = parseFrom s (before ++ args') := by
  induction before using OptionPosition.induct generalizing s with
  | case1 => exact h s hs
  | case2 arg =>
      simp only [OptionPosition, Bool.and_eq_true, decide_eq_true_eq, Bool.not_eq_true'] at hbefore
      exact parseFrom_alone h (readArg_alone hs hbefore.1 hbefore.2)
  | case3 arg value rest ihTakes ihAlone =>
      simp only [OptionPosition, Bool.and_eq_true, decide_eq_true_eq] at hbefore
      obtain ⟨hend, hrest⟩ := hbefore
      by_cases htakes : takesNext arg = true
      · rw [if_pos htakes] at hrest
        obtain ⟨s', hrun, hs'⟩ := readArg_takes hs htakes value
        rw [List.cons_append, List.cons_append, List.cons_append, List.cons_append,
          parseFrom_cons, parseFrom_cons, hrun, hrun]
        exact ihTakes hrest hs'
      · rw [if_neg htakes] at hrest
        exact parseFrom_alone (fun s hs => ihAlone hrest hs)
          (readArg_alone hs hend (Bool.not_eq_true _ ▸ htakes))

/-! ## the spellings read alike -/

/-- Each form of a value option sets the value and nothing else. -/
theorem parseFrom_form {opt : ValueOption} {value : String} {form : ValueForm} (hvalue : value ≠ "")
    {s : CliArgs} (hs : s.optionsDone = false) (rest : List String) :
    parseFrom s (form.args opt value ++ rest) = parseFrom (opt.set value s) rest := by
  have hletter : opt.letter ≠ '-' := by cases opt <;> decide
  have hname : opt.name.toList ≠ [] := by cases opt <;> decide
  have heq : '=' ∉ opt.name.toList := by cases opt <;> decide
  cases form with
  | joined =>
      have hne : value.toList ≠ [] := fun h => hvalue (String.toList_inj.mp h)
      rw [ValueForm.args, List.singleton_append, parseFrom_cons,
        readArg_cluster hs String.toList_ofList hletter, shortCluster_value, if_neg hne,
        String.ofList_toList]
      rfl
  | separate =>
      rw [ValueForm.args, List.cons_append, parseFrom_cons,
        readArg_cluster hs String.toList_ofList hletter, shortCluster_value]
      rfl
  | inline =>
      have harg : ("--" ++ opt.name ++ "=" ++ value).toList =
          '-' :: '-' :: (opt.name.toList ++ '=' :: value.toList) := by
        simp
      have hsplit : splitOnce (opt.name.toList ++ '=' :: value.toList) = (opt.name, some value) := by
        rw [splitOnce_append heq, String.ofList_toList, String.ofList_toList]
      obtain ⟨what, hrun⟩ := longOption_value opt hsplit s
      rw [ValueForm.args, List.singleton_append, parseFrom_cons,
        readArg_long hs harg (by simp), hrun]
      rfl
  | following =>
      have harg : ("--" ++ opt.name).toList = '-' :: '-' :: opt.name.toList := by
        simp
      have hsplit : splitOnce opt.name.toList = (opt.name, none) := by
        rw [splitOnce_of_ne heq, String.ofList_toList]
      obtain ⟨what, hrun⟩ := longOption_value opt hsplit s
      rw [ValueForm.args, List.cons_append, parseFrom_cons, readArg_long hs harg hname, hrun]
      rfl

/-- The letters of a cluster read as options of their own. -/
theorem parseRest_cluster {cs : List Char} {last : Option (ValueOption × String)}
    (hflags : ∀ c ∈ cs, c ∈ flagLetters) (hvalue : ∀ p ∈ last, p.2 ≠ "") (form : ValueForm)
    {s : CliArgs} (hs : s.optionsDone = false) (rest : List String) :
    parseRest ((shortCluster (cs ++ ShortCluster.tail last) s).run rest) =
      parseFrom s (cs.map (fun c => String.ofList ['-', c]) ++
        last.toList.flatMap (fun p => form.args p.1 p.2) ++ rest) := by
  induction cs generalizing s with
  | nil =>
      cases last with
      | none => rfl
      | some p =>
          have hp : p.2 ≠ "" := hvalue p rfl
          have hne : p.2.toList ≠ [] := fun h => hp (String.toList_inj.mp h)
          rw [List.map_nil, List.nil_append, List.nil_append, Option.toList_some,
            List.flatMap_singleton, parseFrom_form hp hs, ShortCluster.tail, shortCluster_value,
            if_neg hne, pure_bind, String.ofList_toList]
          rfl
  | cons c cs ih =>
      have hc : c ∈ flagLetters := hflags c List.mem_cons_self
      have hdash : c ≠ '-' := by
        rintro rfl
        exact absurd hc (by decide)
      rw [List.map_cons, List.cons_append, List.cons_append, List.cons_append, parseFrom_cons,
        readArg_cluster hs String.toList_ofList hdash]
      obtain hc | hc : c ∈ ['l', 'p', 'q'] ∨ c ∈ ['h', 'V'] := List.mem_append.mp hc
      · obtain ⟨s', hs', hrun⟩ := shortCluster_flag hc s
        rw [hrun, hrun, ih (fun c hc => hflags c (List.mem_cons_of_mem _ hc)) (hs'.trans hs)]
        rfl
      · obtain ⟨e, hrun⟩ := shortCluster_stop hc
        rw [hrun, hrun]
        rfl

/-- A cluster reads like its letters one by one. -/
theorem parseFrom_cluster (k : ShortCluster) (form : ValueForm) {s : CliArgs}
    (hs : s.optionsDone = false) (rest : List String) :
    parseFrom s (k.joined :: rest) = parseFrom s (k.separate form ++ rest) := by
  obtain ⟨c, cs, hk, hdash⟩ : ∃ c cs, k.letters ++ ShortCluster.tail k.last = c :: cs ∧ c ≠ '-' := by
    rcases hletters : k.letters with _ | ⟨c, cs⟩
    · rcases hlast : k.last with _ | p
      · exact absurd k.nonempty (by simp [hletters, hlast])
      · exact ⟨p.1.letter, p.2.toList, rfl, by cases p.1 <;> decide⟩
    · refine ⟨c, cs ++ ShortCluster.tail k.last, rfl, ?_⟩
      rintro rfl
      exact absurd (k.flags '-' (hletters ▸ List.mem_cons_self)) (by decide)
  have hjoined : k.joined.toList = '-' :: c :: cs := by
    rw [ShortCluster.joined, String.toList_ofList, hk]
  rw [parseFrom_cons, readArg_cluster hs hjoined hdash, ← hk]
  exact parseRest_cluster k.flags k.value_ne form hs rest

/-- At an option position, a cluster of short options reads as the same options one by
one, and the forms that give an option its value read alike. -/
theorem spellings_equivalent (prog : String) (before after : List String)
    (hbefore : OptionPosition before) :
    (∀ (k : ShortCluster) (form : ValueForm),
      (parseArgs.run (prog :: (before ++ k.joined :: after))).1 =
        (parseArgs.run (prog :: (before ++ (k.separate form ++ after)))).1) ∧
    ∀ (opt : ValueOption) (value : String) (form form' : ValueForm), value ≠ "" →
      (parseArgs.run (prog :: (before ++ (form.args opt value ++ after)))).1 =
        (parseArgs.run (prog :: (before ++ (form'.args opt value ++ after)))).1 := by
  constructor
  · intro k form
    exact parseArgs_congr
      (parseFrom_append hbefore (fun s hs => parseFrom_cluster k form hs after) rfl)
  · intro opt value form form' hvalue
    refine parseArgs_congr (parseFrom_append hbefore (fun s hs => ?_) rfl)
    rw [parseFrom_form hvalue hs, parseFrom_form hvalue hs]

/-- `-lqd-=` is `-l -q --output-dir=-=`, also behind the password `--`. -/
theorem spellings_equivalent_sample :
    (parseArgs.run ["unegg", "-P", "--", "-lqd-=", "a.egg"]).1 =
      (parseArgs.run ["unegg", "-P", "--", "-l", "-q", "--output-dir=-=", "a.egg"]).1 ∧
    (parseArgs.run ["unegg", "-P", "--", "-d-=", "a.egg"]).1 =
      (parseArgs.run ["unegg", "-P", "--", "-d", "-=", "a.egg"]).1 := by
  have h := spellings_equivalent "unegg" ["-P", "--"] ["a.egg"] (by decide)
  have hcluster := h.1 ⟨['l', 'q'], some (.outputDir, "-="), by simp [flagLetters], by simp,
    .inl (by simp)⟩ .inline
  have hform := h.2 .outputDir "-=" .joined .separate (by decide)
  constructor
  · rw [show ShortCluster.joined _ = "-lqd-=" by decide +kernel,
      show ShortCluster.separate _ .inline = ["-l", "-q", "--output-dir=-="] by decide +kernel]
      at hcluster
    exact hcluster
  · rw [show ValueForm.args .outputDir "-=" .joined = ["-d-="] by decide +kernel,
      show ValueForm.args .outputDir "-=" .separate = ["-d", "-="] by decide +kernel] at hform
    exact hform

example : (parseArgs.run ["unegg", "-P", "--", "-lqd-=", "a.egg"]).1 =
    .ok { list := true, pipe := false, quiet := true, destDir := some "-=",
          password := some "--", archive := "a.egg", files := [] } := by decide +kernel

end Unegg
