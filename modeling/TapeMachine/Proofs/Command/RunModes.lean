import TapeMachine.Command
import TapeMachine.Proofs.Image.Printing
import TapeMachine.Proofs.Machine.Ending

/-! The two ways to run a program from the command line: from its text, or from the image that the
listing of the text starts with. Both give the same answer, and both refuse alike what they cannot run. -/

namespace TapeMachine

theorem Text.decodeFrom_append (pre : ByteArray) (cs : List Char) (text : String) :
    decodeFrom (pre ++ cs.utf8Encode) pre.size text = text ++ String.ofList cs := by
  induction cs generalizing pre text with
  | nil =>
    rw [decodeFrom, dif_neg (by simp)]
    simp
  | cons c cs ih =>
    have hsplit : pre ++ (c :: cs).utf8Encode =
        (pre ++ (String.utf8EncodeChar c).toByteArray) ++ cs.utf8Encode := by
      rw [List.utf8Encode_cons, List.utf8Encode_singleton, ByteArray.append_assoc]
    have hsize : (pre ++ (String.utf8EncodeChar c).toByteArray).size = pre.size + c.utf8Size := by
      rw [ByteArray.size_append, List.size_toByteArray, String.length_utf8EncodeChar]
    have hlt : pre.size < (pre ++ (c :: cs).utf8Encode).size := by
      have := c.utf8Size_pos
      rw [hsplit, ByteArray.size_append, hsize]
      omega
    have hfirst : (pre ++ (c :: cs).utf8Encode).utf8DecodeChar? pre.size = some c := by
      rw [ByteArray.utf8DecodeChar?_eq_utf8DecodeChar?_extract,
        ByteArray.extract_append_eq_right rfl (ByteArray.size_append ..),
        List.utf8DecodeChar?_utf8Encode_cons]
    rw [decodeFrom, dif_pos hlt, hfirst]
    dsimp only
    rw [hsplit, ← hsize, ih]
    simp [← String.toList_inj]

/-- A file that holds a text is read as that text. -/
theorem Text.ofBytes_toByteArray (text : String) : ofBytes text.toByteArray = text := by
  have h := decodeFrom_append ByteArray.empty text.toList ""
  simpa [ofBytes] using h

/-- How the execution of an image ends: the image is refused, or it is run to the end. -/
inductive Image.Executes (image : Image) (tape : Tape) (inputs : List Word) : Execution → Prop
  | refused {e} (refusal : (Machine.start image (some tape)).loadError = some e) :
      Executes image tape inputs (.refused e)
  | ran {r} (loaded : (Machine.start image (some tape)).loadError = none)
      (ends : ((Machine.start image (some tape)).pushAll inputs).Ends r) :
      Executes image tape inputs (.ran r)

/-- The end of the line that an image is printed on makes no difference. -/
theorem Image.read_line {image : Image} {line : String}
    (h : line = image.format ∨ line = image.format ++ "\n") : Image.read line = .ok image := by
  rcases h with rfl | rfl
  · exact image.read_format
  · refine image.read_format_append fun c hc => ?_
    obtain rfl : c = '\n' := by simpa using hc
    rfl

namespace FileKind

def image? : FileKind → String → Option Image
  | source, content => (Image.ofSource content).toOption
  | image, content => (Image.read content).toOption

end FileKind

namespace Report

def firstLine (report : Report) : String := String.ofList (report.out.toList.takeWhile (· ≠ '\n'))

/-- Whether the report is what is told of an execution: its outputs, one a line, and a complaint
unless it halted. -/
structure Tells (report : Report) (e : Execution) : Prop where
  out : report.out = String.join (e.outputs.map fun w => w.decimal ++ "\n")
  halted : e.status = .halted → report.exitCode = 0 ∧ report.err = ""
  failed : e.status ≠ .halted → report.exitCode = 1 ∧ report.err ≠ ""

/-- Whether the report is that of a program that has done nothing but complain. -/
structure Refuses (report : Report) : Prop where
  exitCode : report.exitCode = 2
  out : report.out = ""
  err : report.err ≠ ""

theorem append_newline_ne (s : String) : s ++ "\n" ≠ "" := by
  simp

theorem tells_ofExecution (e : Execution) : (ofExecution e).Tells e := by
  unfold ofExecution
  split
  · rename_i hhalted
    exact ⟨rfl, fun _ => ⟨rfl, rfl⟩, fun h => absurd hhalted h⟩
  · rename_i hfailed
    exact ⟨rfl, fun h => absurd h hfailed, fun _ => ⟨rfl, append_newline_ne _⟩⟩

theorem refuses_refusal (err : String) : (refusal err).Refuses := ⟨rfl, rfl, append_newline_ne err⟩

end Report

namespace Machine

theorem Ends.exists_forall_run {m : Machine} {r : Run} (h : m.Ends r) :
    ∃ n₀, ∀ n ≥ n₀, m.run n = some r := by
  induction h with
  | stop ht =>
    refine ⟨1, fun n hn => ?_⟩
    obtain ⟨n, rfl⟩ := Nat.exists_eq_add_of_le' (show 1 ≤ n from hn)
    exact run_succ_of_stopped ht n
  | ok ht _ ih =>
    obtain ⟨n₀, hrun⟩ := ih
    refine ⟨n₀ + 1, fun n hn => ?_⟩
    obtain ⟨n, rfl⟩ := Nat.exists_eq_add_of_le' (show 1 ≤ n by omega)
    rw [run_succ_of_ok ht, hrun n (by omega)]
  | output ht _ ih =>
    obtain ⟨n₀, hrun⟩ := ih
    refine ⟨n₀ + 1, fun n hn => ?_⟩
    obtain ⟨n, rfl⟩ := Nat.exists_eq_add_of_le' (show 1 ≤ n by omega)
    rw [run_succ_of_output ht, hrun n (by omega), Option.map_some]

end Machine

theorem Image.Executes.exists_forall_execute {image : Image} {tape : Tape} {inputs : List Word}
    {e : Execution} (h : image.Executes tape inputs e) :
    ∃ n₀, ∀ n ≥ n₀, image.execute n (some tape) inputs = some e := by
  cases h with
  | refused hrefusal => exact ⟨0, fun n _ => by simp [Image.execute, hrefusal]⟩
  | ran hloaded hends =>
    obtain ⟨n₀, hrun⟩ := hends.exists_forall_run
    exact ⟨n₀, fun n hn => by simp [Image.execute, hloaded, hrun n hn]⟩

namespace Command

/-- What is answered to the arguments, where `files` says what each file holds. -/
def answer? (n : Nat) (arguments : List String) (files : String → Option String) : Option Report :=
  match ofArguments arguments with
  | .error report => some report
  | .ok command => command.perform n (files command.path)

variable {files : String → Option String} {arguments : List String} {inputs : List Word}
  {kind : FileKind} {path content : String} {image : Image}

theorem mapM_readInput (arguments : List String) :
    (∃ inputs, arguments.mapM Word.parse? = some inputs ∧ arguments.mapM readInput = .ok inputs) ∨
      ∃ report : Report, arguments.mapM Word.parse? = none ∧
        arguments.mapM readInput = .error report ∧ report.Refuses := by
  induction arguments with
  | nil => exact .inl ⟨[], rfl, rfl⟩
  | cons text arguments ih =>
    cases htext : Word.parse? text with
    | none => exact .inr ⟨_, by simp [htext], by simp [readInput, htext]; rfl, Report.refuses_refusal _⟩
    | some w =>
      rcases ih with ⟨inputs, hparse, hread⟩ | ⟨report, hparse, hread, hrefuses⟩
      · exact .inl ⟨w :: inputs, by simp [htext, hparse], by simp [readInput, htext, hread]⟩
      · exact .inr ⟨report, by simp [htext, hparse], by simp [readInput, htext, hread], hrefuses⟩

theorem mapM_readInput_eq_ok (h : arguments.mapM Word.parse? = some inputs) :
    arguments.mapM readInput = .ok inputs := by
  rcases mapM_readInput arguments with ⟨inputs', hparse, hread⟩ | ⟨report, hparse, -⟩
  · cases h.symm.trans hparse
    exact hread
  · cases h.symm.trans hparse

theorem answer?_run (n : Nat) (hinputs : arguments.mapM readInput = .ok inputs) :
    answer? n (kind.option :: path :: arguments) files =
      (run kind path inputs).perform n (files path) := by
  cases kind <;> simp [answer?, FileKind.option, ofArguments, ofRunArguments, hinputs, Command.path]

theorem answer?_of_inputs_error {report : Report} (n : Nat)
    (hinputs : arguments.mapM readInput = .error report) :
    answer? n (kind.option :: path :: arguments) files = some report := by
  cases kind <;> simp [answer?, FileKind.option, ofArguments, ofRunArguments, hinputs]

theorem readImage_of_some (h : kind.image? content = some image) :
    readImage kind path content = .ok image := by
  cases kind with
  | source =>
    have hsource : Image.ofSource content = .ok image := toOption_eq_some_iff.1 h
    rw [readImage, hsource]
    rfl
  | image =>
    have hread : Image.read content = .ok image := toOption_eq_some_iff.1 h
    rw [readImage, hread]
    rfl

theorem readImage_of_none (path : String) (h : kind.image? content = none) :
    ∃ report : Report, readImage kind path content = .error report ∧ report.Refuses := by
  cases kind with
  | source =>
    cases hsource : Image.ofSource content with
    | ok image => simp [FileKind.image?, hsource, Except.toOption] at h
    | error e => exact ⟨_, by rw [readImage, hsource]; rfl, Report.refuses_refusal _⟩
  | image =>
    cases hread : Image.read content with
    | ok image => simp [FileKind.image?, hread, Except.toOption] at h
    | error e => exact ⟨_, by rw [readImage, hread]; rfl, Report.refuses_refusal _⟩

theorem answer?_of_image (n : Nat) (hinputs : arguments.mapM readInput = .ok inputs)
    (himage : (files path).bind kind.image? = some image) :
    answer? n (kind.option :: path :: arguments) files =
      Report.ofExecution <$> image.execute n (some (.blank .growable Tape.defaultLimit)) inputs := by
  obtain ⟨content, hcontent, himage⟩ := Option.bind_eq_some_iff.1 himage
  have hread : (run kind path inputs).image (some content) = .ok image := readImage_of_some himage
  rw [answer?_run n hinputs, hcontent, perform, hread]

theorem answer?_of_no_image (hinputs : arguments.mapM readInput = .ok inputs)
    (himage : (files path).bind kind.image? = none) : ∃ report : Report, report.Refuses ∧
      ∀ n, answer? n (kind.option :: path :: arguments) files = some report := by
  obtain ⟨report, hrefused, hreport⟩ : ∃ report : Report,
      (run kind path inputs).image (files path) = .error report ∧ report.Refuses := by
    cases hcontent : files path with
    | none => exact ⟨_, rfl, Report.refuses_refusal _⟩
    | some content =>
      rw [hcontent] at himage
      exact readImage_of_none path himage
  exact ⟨report, hreport, fun n => by rw [answer?_run n hinputs, perform, hrefused]⟩

/-- The listing of a program starts with its image, on a line of its own. -/
theorem firstLine_listing (image : Image) (listing : String) (exitCode : UInt8) :
    Report.firstLine { exitCode, out := image.format ++ "\n" ++ listing } = image.format := by
  have hline : ∀ c ∈ image.format.toList, decide (c ≠ '\n') = true := by
    intro c hc
    have hblank := Image.isBlank_of_mem_format hc
    by_contra heq
    obtain rfl : c = '\n' := by simpa using heq
    cases hblank
  rw [Report.firstLine, String.toList_append, String.toList_append, List.append_assoc,
    List.takeWhile_append_of_pos hline]
  simp

theorem answer?_disasm (n : Nat) (h : files path = some content)
    (himage : Image.ofSource content = .ok image) : answer? n ["--disasm", path] files =
      some { exitCode := 0, out := image.format ++ "\n" ++ image.disassembly } := by
  simp [answer?, ofArguments, perform, Command.image, Command.path, Command.kind, readImage, h, himage,
    Except.mapError]

/-- A program is answered alike from its text and from the first line of its listing, with what its
execution comes to; where there is nothing to execute, the answer to both is a complaint. -/
theorem run_modes_agree (files : String → Option String) (arguments : List String) :
    (∀ path text image inputs, files path = some text → Image.ofSource text = .ok image →
      arguments.mapM Word.parse? = some inputs →
      ∃ listing : Report, (∀ n, answer? n ["--disasm", path] files = some listing) ∧
        listing.exitCode = 0 ∧ Image.read listing.firstLine = .ok image ∧
        ∀ copy line, files copy = some line →
          line = listing.firstLine ∨ line = listing.firstLine ++ "\n" →
          (∀ n, answer? n ("--image" :: copy :: arguments) files =
            answer? n ("--llir" :: path :: arguments) files) ∧
          ∀ e, image.Executes (.blank .growable Tape.defaultLimit) inputs e →
            ∃ report : Report, report.Tells e ∧
              ∃ n₀, ∀ n ≥ n₀, answer? n ("--llir" :: path :: arguments) files = some report) ∧
    ∀ (kind : FileKind) (path : String),
      arguments.mapM Word.parse? = none ∨ (files path).bind kind.image? = none →
      ∃ report : Report, report.Refuses ∧
        ∀ n, answer? n (kind.option :: path :: arguments) files = some report := by
  constructor
  · intro path text image inputs htext himage hparse
    refine ⟨_, fun n => answer?_disasm n htext himage, rfl, ?_, ?_⟩
    · rw [firstLine_listing]
      exact image.read_format
    rw [firstLine_listing]
    intro copy line hcopy hline
    have hinputs := mapM_readInput_eq_ok hparse
    have hsource : (files path).bind FileKind.source.image? = some image := by
      rw [htext]
      exact toOption_eq_some_iff.2 himage
    have hcopied : (files copy).bind FileKind.image.image? = some image := by
      rw [hcopy]
      exact toOption_eq_some_iff.2 (Image.read_line hline)
    refine ⟨fun n => ?_, fun e he => ⟨_, Report.tells_ofExecution e, ?_⟩⟩
    · exact (answer?_of_image n hinputs hcopied).trans (answer?_of_image n hinputs hsource).symm
    · obtain ⟨n₀, hexecute⟩ := he.exists_forall_execute
      refine ⟨n₀, fun n hn => ?_⟩
      rw [← FileKind.option, answer?_of_image n hinputs hsource, hexecute n hn]
      rfl
  · intro kind path hrefused
    rcases mapM_readInput arguments with ⟨inputs, hparse, hinputs⟩ | ⟨report, -, hinputs, hreport⟩
    · exact answer?_of_no_image hinputs (hrefused.resolve_left (by simp [hparse]))
    · exact ⟨report, hreport, fun n => answer?_of_inputs_error n hinputs⟩

/-- A program that puts out its input, and the line that its listing starts with. -/
def echoFiles : String → Option String
  | "echo.llir" => some "IN &x\nOUT &x\nHALT\nVAR x"
  | "echo.img" => some "3,5,4,5,99,0"
  | _ => none

theorem run_modes_echo :
    (∃ report n, answer? n ["--llir", "echo.llir", "-7"] echoFiles = some report ∧
      answer? n ["--image", "echo.img", "-7"] echoFiles = some report ∧
      report.exitCode = 0 ∧ report.out = "-7\n" ∧ report.err = "") ∧
    ∃ report : Report, report.Refuses ∧
      answer? 0 ["--image", "echo.img", "-7", "seven"] echoFiles = some report := by
  obtain ⟨hagree, -⟩ := run_modes_agree echoFiles ["-7"]
  obtain ⟨-, hrefuse⟩ := run_modes_agree echoFiles ["-7", "seven"]
  constructor
  · obtain ⟨listing, hlisting, -, -, hrun⟩ := hagree "echo.llir" _ [3, 5, 4, 5, 99, 0] [-7] rfl
      (by decide +kernel) (by decide +kernel)
    have hline : listing.firstLine = "3,5,4,5,99,0" := by
      have hfirst : (answer? 0 ["--disasm", "echo.llir"] echoFiles).map Report.firstLine =
          some "3,5,4,5,99,0" := by decide +kernel
      rw [hlisting] at hfirst
      exact Option.some.inj hfirst
    obtain ⟨hsame, htold⟩ := hrun "echo.img" _ rfl (.inl hline.symm)
    obtain ⟨report, htells, n, hanswer⟩ := htold _ (.ran rfl (Machine.ends_of_run (n := 3) rfl))
    obtain ⟨hexit, herr⟩ := htells.halted rfl
    exact ⟨report, n, hanswer n le_rfl, (hsame n).trans (hanswer n le_rfl), hexit, htells.out, herr⟩
  · obtain ⟨report, hrefuses, hanswer⟩ := hrefuse .image "echo.img" (.inl (by decide +kernel))
    exact ⟨report, hrefuses, hanswer 0⟩

end Command
end TapeMachine
