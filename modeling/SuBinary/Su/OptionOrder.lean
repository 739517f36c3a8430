import SuBinary.Su.CommandLine

/-! # The order of the options

The option `-c` sets the shell back to the default, whatever `-s` said before it.
-/

namespace SuBinary.Su

open SuBinary Getopt

/-! ## Settings -/

inductive Setting
  | command (text : CString)
  | shell (path : CString)
  | login
  | preserve
deriving DecidableEq

/-- The options that `getopt_long` returns, and the settings that they are. -/
inductive Sets : Byte × Option CString → Setting → Prop
  | command (text : CString) : Sets (99, some text) (.command text)
  | shell (path : CString) : Sets (115, some path) (.shell path)
  | login : Sets (108, none) .login
  | keep : Sets (109, none) .preserve
  | preserve : Sets (112, none) .preserve

/-- The option of a setting, of which `-m` and `-p` are one. -/
def Setting.option : Setting → Byte
  | .command _ => 99
  | .shell _ => 115
  | .login => 108
  | .preserve => 109

def Setting.argument : Setting → Option CString
  | .command text => some text
  | .shell path => some path
  | .login => none
  | .preserve => none

/-- The fields of the request that the options write. -/
structure Chosen where
  shell : Option CString
  command : Option CString
  login : Bool
  keepenv : Bool
deriving DecidableEq

def SuRequest.chosen (request : SuRequest) : Chosen where
  shell := request.shell
  command := request.command
  login := request.login
  keepenv := request.keepenv

def Chosen.start : Chosen where
  shell := none
  command := none
  login := false
  keepenv := false

def Chosen.apply (chosen : Chosen) : Setting → Chosen
  | .command text => { chosen with shell := some defaultShell, command := some text }
  | .shell path => { chosen with shell := some path }
  | .login => { chosen with login := true }
  | .preserve => { chosen with keepenv := true }

theorem applyOption_setting {found : Byte × Option CString} {setting : Setting}
    (sets : Sets found setting) (request : SuRequest) :
    ∃ next, applyOption request found.1 found.2 = .ok next ∧
      next.chosen = request.chosen.apply setting := by
  cases sets with
  | command text => exact ⟨_, rfl, rfl⟩
  | shell path => exact ⟨_, rfl, rfl⟩
  | login => exact ⟨_, rfl, rfl⟩
  | keep => exact ⟨_, rfl, rfl⟩
  | preserve => exact ⟨_, rfl, rfl⟩

/-- The options make these settings, in this order, and are followed by these words. -/
structure Reads (words : List CString) (settings : List Setting) (rest : List CString) : Prop where
  scanned : ∃ found final, Scans suOptions words ⟨1, []⟩ found final ∧
    List.Forall₂ Sets found settings ∧ words.drop final.optind = rest

theorem optionLoop_scans {words : List CString} {scan final : Scan}
    {found : List (Byte × Option CString)} (scans : Scans suOptions words scan found final)
    {settings : List Setting} (sets : List.Forall₂ Sets found settings) (request : SuRequest) :
    ∃ last, (optionLoop words).run (scan, request) = .ok last ∧
      last.chosen = settings.foldl Chosen.apply request.chosen ∧ last.optind = final.optind := by
  induction scans generalizing settings request with
  | @done scan final ends =>
      cases sets
      have turn : (optionLoop words).body (scan, request) =
          .finish (.ok { request with optind := final.optind }) := by
        simp only [optionLoop, optionTurn, ends]
      exact ⟨_, (optionLoop words).run_of_finish turn, rfl, rfl⟩
  | @option scan after final option optarg found first rest induction =>
      cases sets with
      | cons isSetting sets =>
          rcases applyOption_setting isSetting request with ⟨next, applied, isNext⟩
          rcases induction sets next with ⟨last, ran, isLast, sameOptind⟩
          have turn : (optionLoop words).body (scan, request) = .again (after, next) := by
            simp only [optionLoop, optionTurn, first, applied]
          refine ⟨last, ((optionLoop words).run_of_again turn).trans ran, ?_, sameOptind⟩
          rw [isLast, isNext, List.foldl_cons]

theorem Reads.parsed {words rest : List CString} {settings : List Setting}
    (reads : Reads words settings rest) :
    ∃ request, Su.parseOptions words = .ok request ∧
      request.chosen = settings.foldl Chosen.apply Chosen.start ∧
      words.drop request.optind = rest := by
  rcases reads.scanned with ⟨found, final, scans, sets, isRest⟩
  rcases optionLoop_scans scans sets (newRequest words) with ⟨last, ran, isLast, sameOptind⟩
  exact ⟨last, ran, isLast, sameOptind ▸ isRest⟩

theorem Reads.parseOptions {words rest : List CString} {settings : List Setting}
    (reads : Reads words settings rest) :
    ∃ request, parseOptions words = .ok request ∧
      request.chosen = settings.foldl Chosen.apply Chosen.start := by
  rcases reads.parsed with ⟨request, parsed, chosen, -⟩
  exact ⟨request, parsed, chosen⟩

/-! ## Orders -/

def Once (settings : List Setting) : Prop := (settings.map Setting.option).Nodup

instance (settings : List Setting) : Decidable (Once settings) :=
  inferInstanceAs (Decidable (settings.map Setting.option).Nodup)

/-- However the same options are ordered and spelled before the same words, they choose
the same; and a shell that they name is the one that runs a command that they name. -/
def OrderIrrelevant (words : List CString) (settings : List Setting) (rest : List CString) : Prop :=
  ∀ other reordered, Reads other reordered rest → reordered.Perm settings →
    other.take 1 = words.take 1 →
      ∃ request otherRequest, Su.parseOptions words = .ok request ∧
        Su.parseOptions other = .ok otherRequest ∧ otherRequest.chosen = request.chosen ∧
        ∀ text path, .command text ∈ settings → .shell path ∈ settings →
          request.command = some text ∧ request.shell = some path

def KeepsShell (settings : List Setting) : Prop :=
  ∀ text path, .command text ∈ settings → .shell path ∈ settings → path = defaultShell

theorem Chosen.apply_comm {first second : Setting} (other : first.option ≠ second.option)
    (shells : ∀ text path, (first = .command text ∧ second = .shell path ∨
      second = .command text ∧ first = .shell path) → path = defaultShell) (chosen : Chosen) :
    (chosen.apply first).apply second = (chosen.apply second).apply first := by
  cases first with
  | command text =>
      cases second with
      | command text' => exact absurd rfl other
      | shell path =>
          rw [shells text path (Or.inl ⟨rfl, rfl⟩)]
          rfl
      | login => rfl
      | preserve => rfl
  | shell path =>
      cases second with
      | command text =>
          rw [shells text path (Or.inr ⟨rfl, rfl⟩)]
          rfl
      | shell path' => exact absurd rfl other
      | login => rfl
      | preserve => rfl
  | login =>
      cases second with
      | command text => rfl
      | shell path => rfl
      | login => rfl
      | preserve => rfl
  | preserve =>
      cases second with
      | command text => rfl
      | shell path => rfl
      | login => rfl
      | preserve => rfl

theorem eq_of_option {settings : List Setting} (once : Once settings) {first second : Setting}
    (isFirst : first ∈ settings) (isSecond : second ∈ settings)
    (same : first.option = second.option) : first = second :=
  List.inj_on_of_nodup_map once isFirst isSecond same

theorem foldl_apply_perm {settings reordered : List Setting} (once : Once settings)
    (keeps : KeepsShell settings) (perm : reordered.Perm settings) (chosen : Chosen) :
    reordered.foldl Chosen.apply chosen = settings.foldl Chosen.apply chosen := by
  refine perm.foldl_eq' (fun first isFirst second isSecond chosen => ?_) chosen
  have isFirst := perm.subset isFirst
  have isSecond := perm.subset isSecond
  by_cases same : first.option = second.option
  · rw [eq_of_option once isFirst isSecond same]
  · refine Chosen.apply_comm same (fun text path both => ?_) chosen
    rcases both with ⟨rfl, rfl⟩ | ⟨rfl, rfl⟩
    · exact keeps text path isFirst isSecond
    · exact keeps text path isSecond isFirst

theorem foldl_apply_command (before : List Setting) (text : CString) (chosen : Chosen) :
    let last := (before ++ [Setting.command text]).foldl Chosen.apply chosen
    last.command = some text ∧ last.shell = some defaultShell := by
  rw [List.foldl_append]
  exact ⟨rfl, rfl⟩

theorem foldl_apply_keeps {settings : List Setting} (once : Once settings)
    (keeps : KeepsShell settings) {text : CString} (isCommand : .command text ∈ settings)
    (chosen : Chosen) :
    (settings.foldl Chosen.apply chosen).command = some text ∧
      (settings.foldl Chosen.apply chosen).shell = some defaultShell := by
  have perm : (settings.erase (.command text) ++ [Setting.command text]).Perm settings :=
    (List.perm_append_singleton _ _).trans (List.perm_cons_erase isCommand).symm
  rw [← foldl_apply_perm once keeps perm]
  exact foldl_apply_command _ text chosen

/-! ## Written out -/

def Setting.found (setting : Setting) : Byte × Option CString := (setting.option, setting.argument)

theorem Setting.sets (setting : Setting) : Sets setting.found setting := by
  cases setting with
  | command text => exact .command text
  | shell path => exact .shell path
  | login => exact .login
  | preserve => exact .keep

theorem Setting.listed (setting : Setting) : Listed suOptions setting.found := by
  cases setting with
  | command text => exact ⟨(by decide : (99 : Byte) ≠ dash), rfl⟩
  | shell path => exact ⟨(by decide : (115 : Byte) ≠ dash), rfl⟩
  | login => exact ⟨by decide, rfl⟩
  | preserve => exact ⟨by decide, rfl⟩

def writtenOut (program : CString) (settings : List Setting) (rest : List CString) :
    List CString :=
  [program] ++ ((settings.map Setting.found).flatMap spell ++ [dash, dash] :: rest)

theorem reads_writtenOut (program : CString) (settings : List Setting) (rest : List CString) :
    Reads (writtenOut program settings rest) settings rest := by
  have listed : ∀ option, option ∈ settings.map Setting.found → Listed suOptions option := by
    intro option member
    rcases List.mem_map.mp member with ⟨setting, -, rfl⟩
    exact setting.listed
  have sets : List.Forall₂ Sets (settings.map Setting.found) settings := by
    rw [List.forall₂_map_left_iff, List.forall₂_same]
    exact fun setting _ => setting.sets
  let front := [program] ++ (settings.map Setting.found).flatMap spell
  have isFront : writtenOut program settings rest = (front ++ [[dash, dash]]) ++ rest := by
    simp [writtenOut, front]
  refine ⟨_, _, scans_spell _ listed [program] rest, sets, ?_⟩
  rw [isFront]
  exact List.drop_left' (by simp [front])

/-! ## When the order does not matter -/

theorem Reads.program {words rest : List CString} {settings : List Setting}
    (reads : Reads words settings rest) (someSetting : settings ≠ []) :
    ∃ program, words.take 1 = [program] := by
  cases words with
  | cons program words => exact ⟨program, rfl⟩
  | nil =>
      rcases reads.scanned with ⟨found, final, scans, sets, -⟩
      cases scans with
      | done => exact absurd (List.forall₂_nil_left_iff.mp sets) someSetting
      | option first => cases first

/-- The options can be given in any order exactly when a command does not come with
another shell than the default. -/
theorem order_irrelevant_iff {words : List CString} {settings : List Setting}
    {rest : List CString} (reads : Reads words settings rest) (once : Once settings) :
    OrderIrrelevant words settings rest ↔ KeepsShell settings := by
  rcases reads.parseOptions with ⟨request, parsed, chosen⟩
  constructor
  · intro irrelevant text path isCommand isShell
    rcases reads.program (List.ne_nil_of_mem isCommand) with ⟨program, isProgram⟩
    let reordered := settings.erase (.command text) ++ [Setting.command text]
    have perm : reordered.Perm settings :=
      (List.perm_append_singleton _ _).trans (List.perm_cons_erase isCommand).symm
    have written := reads_writtenOut program reordered rest
    rcases irrelevant _ _ written perm isProgram.symm with
      ⟨same, other, parsedSame, parsedOther, agree, runs⟩
    rcases written.parseOptions with ⟨last, parsedLast, chosenLast⟩
    obtain rfl : last = other := Except.ok.inj (parsedLast.symm.trans parsedOther)
    have isDefault : last.chosen.shell = some defaultShell := by
      rw [chosenLast]
      exact (foldl_apply_command _ text _).2
    have isPath : same.chosen.shell = some path := (runs text path isCommand isShell).2
    rw [agree, isPath] at isDefault
    exact Option.some.inj isDefault
  · intro keeps other reordered otherReads perm _
    rcases otherReads.parseOptions with ⟨last, parsedLast, chosenLast⟩
    refine ⟨request, last, parsed, parsedLast, ?_, fun text path isCommand isShell => ?_⟩
    · rw [chosenLast, chosen, foldl_apply_perm once keeps perm]
    · rcases foldl_apply_keeps once keeps isCommand Chosen.start with ⟨command, shell⟩
      rw [← chosen] at command shell
      rw [keeps text path isCommand isShell]
      exact ⟨command, shell⟩

/-- `su -c id -l -- x` can also be written as `su -l -c id -- x`. -/
theorem login_command_order :
    OrderIrrelevant [ascii "su", ascii "-c", ascii "id", ascii "-l", ascii "--", ascii "x"]
      [.command (ascii "id"), .login] [ascii "x"] :=
  (order_irrelevant_iff (reads_writtenOut (ascii "su") [.command (ascii "id"), .login]
    [ascii "x"]) (by decide)).mpr (by simp [KeepsShell])

/-- `su -s /bin/mksh -c id --` runs the command in the default shell. -/
theorem shell_before_command :
    ¬OrderIrrelevant
      [ascii "su", ascii "-s", ascii "/bin/mksh", ascii "-c", ascii "id", ascii "--"]
      [.shell (ascii "/bin/mksh"), .command (ascii "id")] [] := by
  intro irrelevant
  have reads := reads_writtenOut (ascii "su")
    [.shell (ascii "/bin/mksh"), .command (ascii "id")] []
  rcases irrelevant _ _ reads (List.Perm.refl _) rfl with ⟨same, other, parsed, -, -, runs⟩
  rcases reads.parseOptions with ⟨request, parsedRequest, chosen⟩
  obtain rfl : request = same := Except.ok.inj (parsedRequest.symm.trans parsed)
  have isPath : request.chosen.shell = some (ascii "/bin/mksh") :=
    (runs (ascii "id") (ascii "/bin/mksh") (by simp) (by simp)).2
  rw [chosen] at isPath
  exact absurd isPath (by decide)

end SuBinary.Su
