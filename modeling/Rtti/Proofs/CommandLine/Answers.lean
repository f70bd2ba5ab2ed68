import Rtti.CommandLine
import Rtti.Proofs.Session.Breakdowns
import Rtti.Proofs.Session.Independence
import Rtti.Proofs.Text.Lines

/-!
# Answers line by line

What the program writes for its input is what it writes for the lines of the
input, each given to a run of its own.

The scan of a line leaves the session as it was, up to the number of issued
tickets.  No answer depends on that number but the report of a breakdown, which may
tell the number of the scan.  So the program writes for its input what it writes for
the texts that the lines ask to scan, each with the reports of its place
(`join_answers`).  With an undecorator that never breaks down, as that of the program,
there is no breakdown to report (`written_congr`).

The input is divided at its line feeds, so a carriage return before one is still
there and what follows the last one is there even if it is empty; neither matters,
since a text is scanned without the line ends behind it (`texts_splitOn`).
-/

namespace Rtti.CommandLine

variable {libraries : Libraries} {environment : Environment} {reports : Reports}
  {session : Session} {line : String} {arguments : List String}

/-! ## Texts and what is written for them -/

/-- The reports of breakdowns after some scans. -/
def Reports.after (reports : Reports) (count : Nat) : Reports :=
  fun number => reports (count + number)

theorem Reports.after_zero (reports : Reports) : reports.after 0 = reports :=
  funext fun number => congrArg reports (Nat.zero_add number)

theorem Reports.after_after (reports : Reports) (first second : Nat) :
    (reports.after first).after second = reports.after (first + second) :=
  funext fun number => congrArg reports (Nat.add_assoc first second number).symm

/-- The texts that lines ask to scan. -/
def texts (lines : List String) : List String :=
  (lines.map lineText).filter fun text => !text.isEmpty

theorem texts_append (before after : List String) :
    texts (before ++ after) = texts before ++ texts after := by
  simp only [texts, List.map_append, List.filter_append]

theorem texts_cons (line : String) (rest : List String) :
    texts (line :: rest) = texts [line] ++ texts rest :=
  texts_append [line] rest

/-- What a session that has made no scan yet writes for texts. -/
def written (reports : Reports) (session : Session) : List String → String
  | [] => ""
  | text :: rest =>
    String.join ((resultLines (reports 1) session
      ((session.decode text).map .completed)).map (· ++ "\n")) ++
        written (reports.after 1) session rest

theorem written_begin (reports : Reports) (session : Session) (texts : List String) :
    written reports session.begin.2 texts = written reports session texts := by
  induction texts generalizing reports with
  | nil => rfl
  | cons text rest ih =>
    rw [written, written, ih]
    rfl

theorem written_append (reports : Reports) (session : Session) (before after : List String) :
    written reports session (before ++ after) =
      written reports session before ++ written (reports.after before.length) session after := by
  induction before generalizing reports with
  | nil => rw [List.nil_append, List.length_nil, reports.after_zero, written, String.empty_append]
  | cons text rest ih =>
    rw [List.cons_append, written, written, ih, String.append_assoc, reports.after_after,
      List.length_cons, Nat.add_comm]

/-- Without breakdowns it does not matter how they are reported. -/
theorem written_congr
    (hsound : ∀ text complaint, session.decode text ≠ .error (.scanBrokeDown complaint))
    (reports other : Reports) (texts : List String) :
    written reports session texts = written other session texts := by
  induction texts generalizing reports other with
  | nil => rfl
  | cons text rest ih =>
    have hresult : resultLines (reports 1) session ((session.decode text).map .completed) =
        resultLines (other 1) session ((session.decode text).map .completed) := by
      cases hdecode : session.decode text with
      | ok hierarchy => rfl
      | error error =>
        cases error with
        | scanBrokeDown complaint => exact absurd hdecode (hsound text complaint)
        | _ => rfl
    rw [written, written, hresult, ih (reports.after 1) (other.after 1)]

/-! ## Answers do not depend on earlier ones -/

theorem answer_eq (reports : Reports) (session : Session) (line : String) :
    answer reports session line =
      if (lineText line).isEmpty then ([], session)
      else (resultLines (reports (session.generation + 1)) session
        ((session.decode (lineText line)).map .completed), session.begin.2) := by
  unfold answer
  simp only [Session.scan_eq]
  split
  · rfl
  · cases session.decode (lineText line) <;> rfl

theorem answers_cons (reports : Reports) (session : Session) (line : String)
    (rest : List String) :
    answers reports session (line :: rest) =
      (answer reports session line).1 ++ answers reports (answer reports session line).2 rest := by
  rw [answers]

/-- The answers are what is written for the texts, with the reports that follow those of
the scans made so far. -/
theorem join_answers (reports : Reports) (session : Session) (lines : List String) :
    String.join ((answers reports session lines).map (· ++ "\n")) =
      written (reports.after session.generation) session (texts lines) := by
  induction lines generalizing session with
  | nil => rfl
  | cons line rest ih =>
    rw [answers_cons, List.map_append, String.join_append, ih, texts_cons, answer_eq]
    by_cases hempty : (lineText line).isEmpty = true
    · have htexts : texts [line] = [] := by simp [texts, hempty]
      rw [if_pos hempty, htexts, List.nil_append]
      exact String.empty_append
    · have htexts : texts [line] = [lineText line] := by simp [texts, hempty]
      have hgeneration : session.begin.2.generation = session.generation + 1 := rfl
      rw [if_neg hempty, htexts, List.singleton_append, written, written_begin, hgeneration,
        reports.after_after]
      rfl

/-- What is written for lines is what is written for each of them, in its place. -/
theorem written_texts (reports : Reports) (session : Session) (lines : List String) :
    written reports session (texts lines) =
      String.join (lines.mapIdx fun place line =>
        written (reports.after (texts (lines.take place)).length) session (texts [line])) := by
  induction lines generalizing reports with
  | nil => rfl
  | cons line rest ih =>
    rw [texts_cons, written_append, ih, List.mapIdx_cons, String.join_cons, List.take_zero,
      show (texts []).length = 0 from rfl, reports.after_zero]
    have hlength (place : Nat) : (texts (line :: rest.take place)).length =
        (texts [line]).length + (texts (rest.take place)).length := by
      rw [texts_cons, List.length_append]
    simp only [List.take_succ_cons, hlength, Reports.after_after]

/-! ## Lines and their ends -/

theorem lineText_of_concat {other : String} {c : Char} (hline : line.toList = other.toList ++ [c])
    (hend : c = '\r' ∨ c = '\n') : lineText line = lineText other := by
  unfold lineText Text.trimEnd
  rw [hline, List.reverse_append, List.reverse_singleton, List.singleton_append,
    List.dropWhile_cons_of_pos (by simpa using hend)]

theorem lineText_dropReturn (part : List Char) :
    lineText (String.ofList (Text.dropReturn part)) = lineText (String.ofList part) := by
  unfold Text.dropReturn
  split
  · next hlast =>
    have hsplit : (String.ofList part).toList =
        (String.ofList part.dropLast).toList ++ ['\r'] := by
      rw [String.toList_ofList, String.toList_ofList, List.dropLast_append_getLast? _ hlast]
    exact (lineText_of_concat hsplit (.inl rfl)).symm
  · rfl

/-- The parts between line feeds ask for the texts that the lines ask for. -/
theorem texts_splitOn (text : String) :
    texts ((text.toList.splitOn '\n').map String.ofList) = texts (Text.lines text) := by
  obtain ⟨ended, last, hsplit⟩ :=
    (List.eq_nil_or_concat' _).resolve_left (List.splitOn_ne_nil '\n' text.toList)
  have hended : texts (ended.map String.ofList) =
      texts (ended.map fun part => String.ofList (Text.dropReturn part)) := by
    simp only [texts, List.map_map, Function.comp_def, lineText_dropReturn]
  have hlast : texts [String.ofList last] =
      texts (if last = [] then [] else [String.ofList last]) := by
    split
    · next hempty =>
      rw [hempty]
      decide
    · rfl
  rw [Text.lines_of_splitOn hsplit, hsplit, List.map_append, List.map_singleton, texts_append,
    texts_append, hended, hlast]

theorem texts_intercalate {parts : List String} (hne : parts ≠ [])
    (hfeeds : ∀ part ∈ parts, '\n' ∉ part.toList) :
    texts (Text.lines ("\n".intercalate parts)) = texts parts := by
  have hparts : (parts.map String.toList).map String.ofList = parts := by
    simp only [List.map_map, Function.comp_def, String.ofList_toList, List.map_id']
  rw [← texts_splitOn, Text.splitOn_intercalate_lines hne hfeeds, hparts]

/-- A line asks for the same text with its end and without. -/
theorem texts_line {line ending : String} (hline : '\n' ∉ line.toList)
    (hending : ending ∈ ["", "\n", "\r\n"]) :
    texts (Text.lines (line ++ ending)) = texts [line] := by
  have hended {text : String} (htext : '\n' ∉ text.toList) :
      texts (Text.lines (text ++ "\n")) = texts [text] := by
    have hparts : text ++ "\n" = "\n".intercalate [text, ""] := by simp
    have hempty : texts [""] = [] := by decide
    rw [hparts, texts_intercalate (by simp) (by simpa using htext), texts_cons, hempty,
      List.append_nil]
  simp only [List.mem_cons, List.not_mem_nil, or_false] at hending
  rcases hending with rfl | rfl | rfl
  · have hparts : line ++ "" = "\n".intercalate [line] := by simp
    rw [hparts, texts_intercalate (by simp) (by simpa using hline)]
  · exact hended hline
  · have hreturn : '\n' ∉ (line ++ "\r").toList := by simpa using hline
    have htext : lineText (line ++ "\r") = lineText line :=
      lineText_of_concat String.toList_append (.inl rfl)
    rw [show "\r\n" = "\r" ++ "\n" from rfl, ← String.append_assoc, hended hreturn]
    simp only [texts, List.map_singleton, htext]

/-! ## Sessions of the program -/

theorem exists_of_mapError_eq_ok {ε ε' α : Type} {x : Except ε α} {f : ε → ε'} {value : α}
    (hmap : x.mapError f = .ok value) : x = .ok value := by
  cases x with
  | error error => contradiction
  | ok found => exact congrArg Except.ok (Except.ok.inj hmap)

theorem check_of_loadSettings {request : Arguments} {settings : Settings}
    (hload : loadSettings libraries environment request = .ok settings) :
    settings.check = .ok () := by
  obtain ⟨loaded, -, hrest⟩ := exists_of_bind_eq_ok hload
  obtain ⟨_, hcheck, hresult⟩ := exists_of_bind_eq_ok hrest
  obtain rfl := Except.ok.inj hresult
  exact exists_of_mapError_eq_ok hcheck

/-- The program scans snapshots, dumps, which are captured in snapshots, and processes. -/
theorem steady_of_openTarget {settings : Settings} {name : String} {target : Target}
    (hopen : openTarget libraries environment settings name = .ok target) : target.Steady := by
  unfold openTarget at hopen
  split at hopen
  · unfold openProcess at hopen
    split at hopen
    · contradiction
    · obtain ⟨width, -, hrest⟩ := exists_of_bind_eq_ok hopen
      obtain ⟨process, -, hresult⟩ := exists_of_bind_eq_ok hrest
      obtain rfl := Except.ok.inj hresult
      exact process.steady_target width
  · unfold openFile at hopen
    split at hopen
    · contradiction
    · split at hopen
      · obtain ⟨dump, -, hresult⟩ := exists_of_bind_eq_ok hopen
        obtain rfl := Except.ok.inj hresult
        exact Snapshot.steady_target _
      · split at hopen
        · contradiction
        · obtain ⟨snapshot, -, hresult⟩ := exists_of_bind_eq_ok hopen
          obtain rfl := Except.ok.inj hresult
          exact snapshot.steady_target

theorem parts_of_start {target : Target} {platform : Platform} {undecorate : Msvc.Undecorator}
    {limits : Limits} (hstart : Session.start target platform undecorate limits = .ok session) :
    session.target = target ∧ session.undecorate = undecorate ∧
      session.decoder.limits = limits := by
  obtain rfl := Except.ok.inj hstart
  exact ⟨rfl, rfl, rfl⟩

theorem parts_of_detect {target : Target} {undecorate : Msvc.Undecorator} {limits : Limits}
    (hdetect : Session.detect target undecorate limits = .ok session) :
    session.target = target ∧ session.undecorate = undecorate ∧
      session.decoder.limits = limits := by
  unfold Session.detect at hdetect
  split at hdetect
  · contradiction
  · obtain ⟨platform, -, hstart⟩ := exists_of_bind_eq_ok hdetect
    exact parts_of_start hstart

theorem exists_of_openSession {request : Arguments}
    (hopen : openSession libraries environment request = .ok session) :
    ∃ settings : Settings, settings.check = .ok () ∧ session.target.Steady ∧
      session.undecorate = libraries.undecorate ∧
      session.decoder.limits = settings.scanner.limits := by
  obtain ⟨settings, hsettings, hrest⟩ := exists_of_bind_eq_ok hopen
  obtain ⟨target, htarget, hrest⟩ := exists_of_bind_eq_ok hrest
  obtain ⟨bare, hbare, hrest⟩ := exists_of_bind_eq_ok hrest
  obtain ⟨style, -, hresult⟩ := exists_of_bind_eq_ok hrest
  obtain rfl := Except.ok.inj hresult
  have hparts : bare.target = target ∧ bare.undecorate = libraries.undecorate ∧
      bare.decoder.limits = settings.scanner.limits := by
    unfold startSession at hbare
    split at hbare
    · exact parts_of_start (exists_of_mapError_eq_ok hbare)
    · exact parts_of_detect (exists_of_mapError_eq_ok hbare)
  obtain ⟨hsame, hundecorate, hlimits⟩ := hparts
  refine ⟨settings, check_of_loadSettings hsettings, ?_, hundecorate, hlimits⟩
  show bare.target.Steady
  exact hsame ▸ steady_of_openTarget htarget

/-- With an undecorator that never breaks down, no scan of the program does. -/
theorem decode_ne_brokeDown_of_openSession {request : Arguments}
    (hopen : openSession libraries environment request = .ok session)
    (htotal : libraries.undecorate.Total) (text complaint : String) :
    session.decode text ≠ .error (.scanBrokeDown complaint) := by
  obtain ⟨settings, hcheck, hsteady, hundecorate, hlimits⟩ := exists_of_openSession hopen
  exact Session.decode_ne_brokeDown hsteady (hundecorate ▸ htotal) hcheck hlimits text complaint

/-! ## Runs of the program -/

/-- The program writes for its input what runs of their own write for the lines of the
input, with or without their ends. -/
structure AnswersByLine (libraries : Libraries) (environment : Environment)
    (arguments : List String) : Prop where
  /-- The runs report breakdowns as in the place of the line. -/
  inPlace : ∀ reports input, ∀ ending ∈ ["", "\n", "\r\n"],
    (run libraries environment reports arguments input).2 =
      String.join ((Text.lines input).mapIdx fun place line =>
        let earlier := (texts ((Text.lines input).take place)).length
        (run libraries environment (reports.after earlier) arguments (line ++ ending)).2)
  /-- However they report breakdowns, if the undecorator never breaks down. -/
  alone : libraries.undecorate.Total → ∀ reports (reportsOf : Nat → Reports) input,
    ∀ ending ∈ ["", "\n", "\r\n"],
      (run libraries environment reports arguments input).2 =
        String.join ((Text.lines input).mapIdx fun place line =>
          (run libraries environment (reportsOf place) arguments (line ++ ending)).2)

theorem join_mapIdx_empty (lines : List String) :
    String.join (lines.mapIdx fun _ _ => "") = "" := by
  induction lines with
  | nil => rfl
  | cons line rest ih => rw [List.mapIdx_cons, String.join_cons, ih, String.empty_append]

theorem answersByLine_of_silent
    (hsilent : ∀ reports input, (run libraries environment reports arguments input).2 = "") :
    AnswersByLine libraries environment arguments := by
  constructor
  · intro reports input ending _
    simp only [hsilent, join_mapIdx_empty]
  · intro _ reports reportsOf input ending _
    simp only [hsilent, join_mapIdx_empty]

theorem run_of_session {request : Arguments}
    (hrequest : libraries.request arguments = .scan request)
    (hsession : openSession libraries environment request = .ok session) (reports : Reports)
    (input : String) :
    (run libraries environment reports arguments input).2 =
      written (reports.after session.generation) session (texts (Text.lines input)) := by
  unfold run
  rw [hrequest]
  simp only [hsession, join_answers, Text.splitLinesOnto_nil, texts_splitOn]

/-- What runs of their own write for lines of the input. -/
theorem mapIdx_run {request : Arguments} (hrequest : libraries.request arguments = .scan request)
    (hsession : openSession libraries environment request = .ok session)
    (reportsOf : Nat → Reports) (input : String) {ending : String}
    (hending : ending ∈ ["", "\n", "\r\n"]) :
    (Text.lines input).mapIdx (fun place line =>
        (run libraries environment (reportsOf place) arguments (line ++ ending)).2) =
      (Text.lines input).mapIdx fun place line =>
        written ((reportsOf place).after session.generation) session (texts [line]) := by
  refine List.mapIdx_eq_mapIdx_iff.2 fun place hplace => ?_
  have hline := Text.not_mem_of_mem_lines (List.getElem_mem hplace)
  rw [run_of_session hrequest hsession, texts_line hline hending]

theorem answersByLine_of_session {request : Arguments}
    (hrequest : libraries.request arguments = .scan request)
    (hsession : openSession libraries environment request = .ok session) :
    AnswersByLine libraries environment arguments := by
  constructor
  · intro reports input ending hending
    rw [run_of_session hrequest hsession, written_texts]
    refine congrArg String.join (Eq.trans ?_
      (mapIdx_run hrequest hsession (fun place => reports.after _) input hending).symm)
    simp only [Reports.after_after, Nat.add_comm]
  · intro htotal reports reportsOf input ending hending
    have hsound := decode_ne_brokeDown_of_openSession hsession htotal
    rw [run_of_session hrequest hsession, written_texts, mapIdx_run hrequest hsession reportsOf
      input hending]
    refine congrArg String.join (List.mapIdx_eq_mapIdx_iff.2 fun place hplace => ?_)
    exact written_congr hsound _ _ _

theorem answersByLine_of_request (hversion : libraries.request arguments ≠ .version)
    (hhelp : libraries.request arguments ≠ .help) :
    AnswersByLine libraries environment arguments := by
  cases hrequest : libraries.request arguments with
  | version => exact absurd hrequest hversion
  | help => exact absurd hrequest hhelp
  | mistake =>
    apply answersByLine_of_silent
    intro reports input
    unfold run
    rw [hrequest]
  | scan request =>
    cases hsession : openSession libraries environment request with
    | error failure =>
      apply answersByLine_of_silent
      intro reports input
      unfold run
      rw [hrequest]
      simp only [hsession]
    | ok session => exact answersByLine_of_session hrequest hsession

/-- Scans of an open session do not influence each other, and the program answers
line by line unless it only shows its version or how it is used. -/
theorem scansAlone_and_answersByLine :
    (∀ limits session, Session.Opened limits session → ∀ texts, ∃ fresh,
      Session.start session.target session.platform session.undecorate limits = .ok fresh ∧
        session.ScansAlone fresh texts) ∧
    ∀ libraries environment arguments, libraries.request arguments ≠ .version →
      libraries.request arguments ≠ .help → AnswersByLine libraries environment arguments := by
  constructor
  · intro limits session hopened texts
    have hfresh := Session.start_eq_ok session.target session.platform session.undecorate limits
    exact ⟨_, hfresh, Session.scansAlone_of_opened hopened hfresh texts⟩
  · intro libraries environment arguments hversion hhelp
    exact answersByLine_of_request hversion hhelp

/-- A process of 32 bits, in which three objects can be read. -/
def threeObjectsProcess : Process where
  imageName := some "app.exe"
  read address size := (Schedule.threeObjects.read address size).mapError fun _ => "no access"

/-- The session has scanned before, with an undecorator that broke down, and the
scans end in every way there is.  The program is run on a process, with its own
undecorator and with one that breaks down. -/
theorem scansAlone_brittle :
    let session := ((Schedule.brittle.scan "10004").2.withStyle .tree).begin.2
    let texts := ["10000", "zz", "90000", "10008", "10004", "10000"]
    let reports : List (Except ScanError Outcome) :=
      [.ok (.completed (.single .msvc "Base")), .error (.malformedAddress "zz"),
        .error (.readFault "0x00090000" 4 "range not captured"),
        .error (.corruptHierarchy "base_count" 0), .error (.scanBrokeDown "out of memory"),
        .ok (.completed (.single .msvc "Base"))]
    let environment : Environment :=
      { files := fun path =>
          if path = Settings.fileName then
            some (Utf8.encode "[scanner]\nmax_name_len = 8\n[target]\npointer_width = 4\n")
          else none
        processes := fun number =>
          if number = 7 then .ok threeObjectsProcess
          else .error (.readFault s!"PID {number}" 0 "no such process") }
    let byNumber : Reports := fun number complaint => s!"task {number}: {complaint}"
    let frail : Libraries := { Libraries.own with undecorate := Schedule.brittle.undecorate }
    let output (libraries : Libraries) (reports : Reports) (input : String) :=
      (run libraries environment reports ["pid:7"] input).2
    (∃ fresh, Session.start session.target session.platform session.undecorate
        { nameUnits := 8 } = .ok fresh ∧
      (session.scanAll texts).1 = reports ∧ texts.map (fun text => (fresh.scan text).1) = reports) ∧
    output .own byNumber "zz\n\n10004" = "Malformed address: zz\nJob\n" ∧
    output .own byNumber "zz\n\n10004" =
      String.join (["zz", "", "10004"].map fun line => output .own byNumber (line ++ "\r\n")) ∧
    output frail byNumber "zz\n\n10004" =
      "Malformed address: zz\nScan task failed: task 2: out of memory\n" ∧
    output frail byNumber "zz\n\n10004" =
      String.join (["zz", "", "10004"].mapIdx fun place line =>
        output frail (byNumber.after (CommandLine.texts (["zz", "", "10004"].take place)).length)
          (line ++ "\r\n")) := by
  intro session texts reports environment byNumber frail output
  have hstart : Session.start Schedule.threeObjects.target .windows
      (fun _ => .error "out of memory") { nameUnits := 8 } = .ok Schedule.brittle := rfl
  have hopened : Session.Opened { nameUnits := 8 } session :=
    .begin (.withStyle .tree (.scan "10004" (.start hstart)))
  have hreports : (session.scanAll texts).1 = reports := by decide +kernel
  have hown : output .own byNumber "zz\n\n10004" = "Malformed address: zz\nJob\n" := by
    decide +kernel
  have hfrail : output frail byNumber "zz\n\n10004" =
      "Malformed address: zz\nScan task failed: task 2: out of memory\n" := by
    decide +kernel
  obtain ⟨hscans, hanswers⟩ := scansAlone_and_answersByLine
  obtain ⟨fresh, hfresh, halone⟩ := hscans _ session hopened texts
  have hlines : Text.lines "zz\n\n10004" = ["zz", "", "10004"] := by decide
  have htotal : Libraries.own.undecorate.Total := fun name => ⟨_, rfl⟩
  have hbyLine := (hanswers .own environment ["pid:7"] (by decide) (by decide)).alone htotal
    byNumber (fun _ => byNumber) "zz\n\n10004" "\r\n" (by simp)
  have hinPlace := (hanswers frail environment ["pid:7"] (by decide) (by decide)).inPlace
    byNumber "zz\n\n10004" "\r\n" (by simp)
  rw [hlines] at hbyLine hinPlace
  exact ⟨⟨fresh, hfresh, hreports, halone.reports_eq.symm.trans hreports⟩, hown, hbyLine, hfrail,
    hinPlace⟩

end Rtti.CommandLine
