import CoreWar.Assembly.Listing
import CoreWar.Proofs.Comments
import CoreWar.Proofs.LoneInstruction

namespace CoreWar

namespace Text

def isPrintable (s : String) : Bool := s.toList.all (32 ≤ ·.toNat)

@[simp]
theorem isPrintable_append (s t : String) :
    isPrintable (s ++ t) = (isPrintable s && isPrintable t) := by
  simp [isPrintable]

theorem isLine_of_isPrintable {s : String} (h : isPrintable s) : IsLine s.toList := by
  have hall : ∀ c ∈ s.toList, 32 ≤ c.toNat := by simpa [isPrintable] using h
  exact ⟨fun hm => absurd (hall _ hm) (by decide),
    fun hm => absurd (hall _ (List.mem_of_getLast? hm)) (by decide)⟩

theorem isDigit_of_mem_toString {n : Nat} {c : Char} (h : c ∈ (toString n).toList) :
    c.isDigit := by
  rw [Nat.toString_eq_ofList_toDigits, String.toList_ofList] at h
  exact Nat.isDigit_of_mem_toDigits (by decide) (by decide) h

theorem isPrintable_toString (n : Nat) : isPrintable (toString n) := by
  refine List.all_eq_true.mpr fun c hc => decide_eq_true ?_
  have hdigit := Source.isDigit_iff.mp (isDigit_of_mem_toString hc)
  omega

theorem isPrintable_signed (value : Int64) : isPrintable (signed value) := by
  have hminus : isPrintable "-" := by decide
  rw [signed]
  split
  · rw [isPrintable_append, hminus, isPrintable_toString]
    rfl
  · exact isPrintable_toString _

end Text

theorem Operand.isPrintable_text (operand : Operand) : Text.isPrintable operand.text := by
  obtain ⟨mode, value⟩ := operand
  have hsigil : Text.isPrintable (String.singleton mode.sigil) := by cases mode <;> decide
  rw [text, Text.isPrintable_append, Text.isPrintable_signed, hsigil]
  rfl

theorem Instruction.isPrintable_text (insn : Instruction) : Text.isPrintable insn.text := by
  have hmnemonic : Text.isPrintable insn.opcode.mnemonic := by cases insn.opcode <;> decide
  have hname : Text.isPrintable insn.modifier.name := by cases insn.modifier <;> decide
  have hmarks : Text.isPrintable "." ∧ Text.isPrintable " " ∧ Text.isPrintable ", " := by decide
  simp [text, hmnemonic, hname, hmarks, Operand.isPrintable_text]

namespace Program

def withoutIndex (line : List Char) : List Char :=
  (((line.drop 1).dropWhile (· == ' ')).dropWhile Char.isDigit).drop 2

/-- The listing without the column before the instructions, which are its last lines. -/
def bareListing (program : Program) : String :=
  let texts := Text.lines program.listing.toList
  let heading := texts.length - program.length
  String.ofList (Text.unlines (texts.take heading ++ (texts.drop heading).map withoutIndex))

theorem listedOrigin_eq (program : Program) :
    program.listedOrigin = "        ORG " ++ toString program.start := rfl

theorem isPrintable_listedIndex (program : Program) (index : Nat) :
    Text.isPrintable (program.listedIndex index) := by
  have hmarker : Text.isPrintable (if index = program.start then ">" else " ") := by
    split <;> decide
  have hfill : ∀ n, Text.isPrintable (String.ofList (List.replicate n ' ')) := by
    intro n
    simp [Text.isPrintable]
  rw [listedIndex, Text.padLeft]
  simp only [Text.isPrintable_append, hmarker, hfill, Text.isPrintable_toString, Bool.true_and]
  decide

theorem exists_toList_listedIndex (program : Program) (index : Nat) :
    ∃ marker count, (program.listedIndex index).toList =
      marker :: (List.replicate count ' ' ++ ((toString index).toList ++ [' ', ' '])) := by
  refine ⟨if index = program.start then '>' else ' ', 5 - (toString index).length, ?_⟩
  rw [listedIndex, Text.padLeft]
  split <;> simp

theorem withoutIndex_append (program : Program) (index : Nat) (insn : Instruction) :
    withoutIndex (program.listedIndex index ++ insn.text).toList = insn.text.toList := by
  obtain ⟨marker, count, hcolumn⟩ := program.exists_toList_listedIndex index
  have hblanks : ∀ c ∈ List.replicate count ' ', (c == ' ') = true := by simp
  have hdigits : ∀ c ∈ (toString index).toList, c.isDigit :=
    fun c hc => Text.isDigit_of_mem_toString hc
  have hstart : ∀ c ∈ ((toString index).toList ++ ([' ', ' '] ++ insn.text.toList)).head?,
      (c == ' ') = false := by
    have hne : (toString index).toList ≠ [] := by
      rw [Nat.toString_eq_ofList_toDigits, String.toList_ofList]
      exact Nat.toDigits_ne_nil
    obtain ⟨d, ds, hds⟩ := List.exists_cons_of_ne_nil hne
    rw [hds]
    rintro _ ⟨⟩
    have hd := hdigits d (hds ▸ List.mem_cons_self)
    rw [beq_eq_false_iff_ne]
    rintro rfl
    exact absurd hd (by decide)
  have hstop : ∀ c ∈ ([' ', ' '] ++ insn.text.toList).head?, c.isDigit = false := by
    rintro _ ⟨⟩
    decide
  rw [withoutIndex, String.toList_append, hcolumn, List.cons_append, List.drop_succ_cons,
    List.drop_zero, List.append_assoc, List.append_assoc, (Source.span_append hblanks hstart).2,
    (Source.span_append hdigits hstop).2]
  rfl

def linesWith (program : Program) (code : List (List Char)) : List (List Char) :=
  program.metadata.comments.map (';' :: ·) ++ program.listedOrigin.toList :: code

theorem isLine_of_mem_linesWith {program : Program} (h : program.metadata.IsTidy)
    {code : List (List Char)} (hcode : ∀ text ∈ code, Text.IsLine text) :
    ∀ text ∈ program.linesWith code, Text.IsLine text := by
  have hword : Text.isPrintable "        ORG " := by decide
  intro text hm
  obtain hm | hm := List.mem_append.mp hm
  · obtain ⟨comment, hcomment, rfl⟩ := List.mem_map.mp hm
    exact Metadata.isLine_of_mem_comments h hcomment
  · obtain rfl | hm := List.mem_cons.mp hm
    · apply Text.isLine_of_isPrintable
      rw [listedOrigin_eq, Text.isPrintable_append, hword, Text.isPrintable_toString]
      rfl
    · exact hcode text hm

theorem map_toList_listedMetadata (metadata : Metadata) :
    (listedMetadata metadata).map String.toList = metadata.comments.map (';' :: ·) := by
  rw [listedMetadata, Metadata.comments, List.map_flatMap, List.map_flatMap]
  congr 1
  funext key
  rw [Metadata.entryComments]
  cases metadata.get key with
  | none => rfl
  | some value => simp [Metadata.Key.comment]

theorem lines_listing {program : Program} (h : program.metadata.IsTidy) :
    Text.lines program.listing.toList =
      program.linesWith (program.listedCode.map String.toList) := by
  have hlisting : program.listing.toList =
      Text.unlines (program.linesWith (program.listedCode.map String.toList)) := by
    rw [listing, String.toList_join, linesWith, ← map_toList_listedMetadata]
    simp [Text.unlines, List.flatMap_map]
  have hcode : ∀ text ∈ program.listedCode.map String.toList, Text.IsLine text := by
    intro text hm
    obtain ⟨_, hline, rfl⟩ := List.mem_map.mp hm
    obtain ⟨⟨insn, index⟩, _, rfl⟩ := List.mem_map.mp hline
    apply Text.isLine_of_isPrintable
    rw [Text.isPrintable_append, isPrintable_listedIndex, insn.isPrintable_text]
    rfl
  rw [hlisting, Text.lines_unlines (isLine_of_mem_linesWith h hcode)]

theorem map_withoutIndex_listedCode (program : Program) :
    (program.listedCode.map String.toList).map withoutIndex = program.code.map (·.text.toList) := by
  calc (program.listedCode.map String.toList).map withoutIndex
    _ = program.code.zipIdx.map (fun line => line.1.text.toList) := by
      rw [listedCode, List.map_map, List.map_map]
      exact List.map_congr_left fun line _ => program.withoutIndex_append line.2 line.1
    _ = (program.code.zipIdx.map Prod.fst).map (·.text.toList) := by
      rw [List.map_map]
      rfl
    _ = program.code.map (·.text.toList) := by rw [List.zipIdx_map_fst]

/-- Without the column, the lines of code are the instructions as they are written. -/
theorem lines_bareListing {program : Program} (h : program.metadata.IsTidy) :
    Text.lines program.bareListing.toList =
      program.linesWith (program.code.map (·.text.toList)) := by
  have hlength : program.length = (program.listedCode.map String.toList).length := by
    simp [listedCode, length]
  have hbare : program.bareListing.toList =
      Text.unlines (program.linesWith (program.code.map (·.text.toList))) := by
    rw [bareListing, lines_listing h, hlength, linesWith, List.append_cons, List.length_append,
      Nat.add_sub_cancel, List.take_left, List.drop_left, map_withoutIndex_listedCode,
      String.toList_ofList, ← List.append_cons]
    rfl
  have hcode : ∀ text ∈ program.code.map (·.text.toList), Text.IsLine text := by
    intro text hm
    obtain ⟨insn, _, rfl⟩ := List.mem_map.mp hm
    exact Text.isLine_of_isPrintable insn.isPrintable_text
  rw [hbare, Text.lines_unlines (isLine_of_mem_linesWith h hcode)]

theorem readRecords_comments (line since : Nat) (comments rest : List (List Char)) :
    Source.readRecords line [] since (comments.map (';' :: ·) ++ rest) =
      Source.readRecords (line + comments.length) [] since rest := by
  induction comments generalizing line with
  | nil => rfl
  | cons comment comments ih =>
    have hread : Source.Line.read false (';' :: comment) = .ok none := rfl
    rw [List.map_cons, List.cons_append, Source.readRecords]
    rw [List.isEmpty_nil, Bool.not_true, hread]
    dsimp only
    rw [ih, List.length_cons, Nat.add_assoc, Nat.add_comm 1]

theorem toList_listedOrigin (program : Program) :
    program.listedOrigin.toList =
      "        ".toList ++ ("ORG".toList ++ ' ' :: (toString program.start).toList) := by
  rw [listedOrigin_eq, String.toList_append]
  rfl

theorem comment?_listedOrigin (program : Program) :
    Source.comment? program.listedOrigin.toList = none := by
  rw [toList_listedOrigin]
  exact Source.comment?_of_isWord (List.all_eq_true.mp (by decide)) (by decide) _

theorem signed_start {program : Program} {start : Int64}
    (hstart : (program.start : Int) = start.toInt) :
    Text.signed start = toString program.start := by
  have hneg : ¬ start < 0 := by
    rw [Int64.lt_iff_toInt_lt, ← hstart]
    exact Int.not_lt.mpr (Int.natCast_nonneg _)
  rw [Text.signed, if_neg hneg, ← hstart, Int.natAbs_natCast]

theorem read_listedOrigin {program : Program} {start : Int64}
    (hstart : (program.start : Int) = start.toInt) :
    Source.Line.read false program.listedOrigin.toList =
      .ok (some ⟨[], some (.origin (.number start))⟩) := by
  have hnumber : Source.Scans ((Text.signed start).toList ++ [])
      ((Expr.number start).lexemes ++ []) :=
    Expr.scans_number start Source.atEdge_nil .nil
  rw [List.append_nil, List.append_nil, signed_start hstart] at hnumber
  have hscans : Source.Scans program.listedOrigin.toList
      (.word "ORG" :: (Expr.number start).lexemes) := by
    rw [toList_listedOrigin]
    exact .separators (List.all_eq_true.mp (by decide))
      (.word (by decide) (Source.atEdge_cons (by decide) _) (.separator (by decide) hnumber))
  obtain ⟨tokens, hscan, hlexemes⟩ := hscans 1
  have hcode : tokens ≠ [] := by
    rintro rfl
    cases hlexemes
  rw [Source.Line.read_eq_ok_iff hscan program.comment?_listedOrigin hcode, hlexemes]
  exact .body .nil (.origin (by decide) (.term (.factor (Expr.derives_number start))))

end Program

theorem Instruction.opensWith_text (insn : Instruction) :
    Source.OpensWith insn.opcode insn.text.toList := by
  refine ⟨[], insn.opcode.mnemonic.toList,
    '.' :: (insn.modifier.name ++ " " ++ insn.a.text ++ ", " ++ insn.b.text).toList, ?_, nofun, ?_,
    Source.atEdge_cons (by decide) _⟩
  · simp [text]
  · rw [String.ofList_toList]
    exact beq_self_eq_true _

theorem Instruction.readDraftText_text (insn : Instruction) :
    Source.readDraftText insn.text = .ok insn.draft := by
  have hexprs : ∀ e ∈ insn.draft.exprs, e.Worded := by
    simp [draft, Draft.exprs, Draft.operands, Expr.Worded, Expr.symbols]
  rw [← text_draft]
  exact Source.readDraftText_text hexprs

theorem Instruction.read_text (insn : Instruction) :
    Source.Line.read false insn.text.toList = .ok (some ⟨[], some (.instruction insn.draft)⟩) := by
  rw [insn.opensWith_text.read_eq, Source.readDraftText_eq_ok_iff.mp insn.readDraftText_text]
  rfl

namespace Program

open Source (Record)

def codeRecords (line : Nat) : List Instruction → List Record
  | [] => []
  | insn :: code => ⟨[], some line, .instruction insn.draft⟩ :: codeRecords (line + 1) code

theorem readRecords_code (line since : Nat) (code : List Instruction) :
    Source.readRecords line [] since (code.map (·.text.toList)) = .ok (codeRecords line code) := by
  induction code generalizing line with
  | nil => rfl
  | cons insn code ih =>
    rw [List.map_cons, Source.readRecords, List.isEmpty_nil, Bool.not_true, insn.read_text]
    dsimp only
    rw [ih]
    rfl

/-- A listing has one record for the start and one for each instruction, and no labels. -/
def listedRecords (line : Nat) (start : Int64) (code : List Instruction) : List Record :=
  ⟨[], some line, .origin (.number start)⟩ :: codeRecords (line + 1) code

theorem readRecords_linesWith {program : Program} {start : Int64}
    (hstart : (program.start : Int) = start.toInt) :
    ∃ line, Source.readRecords 1 [] 0 (program.linesWith (program.code.map (·.text.toList))) =
      .ok (listedRecords line start program.code) := by
  refine ⟨1 + program.metadata.comments.length, ?_⟩
  rw [linesWith, readRecords_comments, Source.readRecords, List.isEmpty_nil, Bool.not_true,
    read_listedOrigin hstart]
  dsimp only
  rw [readRecords_code]
  rfl

theorem readMetadata_linesWith (program : Program) :
    Source.readMetadata (program.linesWith (program.code.map (·.text.toList))) =
      program.metadata.comments.foldl Metadata.addComment {} := by
  have hcomments : (program.metadata.comments.map (';' :: ·)).filterMap Source.comment? =
      program.metadata.comments := by
    rw [List.filterMap_map]
    exact List.filterMap_some
  have hcode : (program.code.map (·.text.toList)).filterMap Source.comment? = [] := by
    rw [List.filterMap_eq_nil_iff]
    intro text hm
    obtain ⟨insn, _, rfl⟩ := List.mem_map.mp hm
    exact insn.opensWith_text.comment?_eq_none
  rw [Source.readMetadata, linesWith, List.filterMap_append, hcomments,
    List.filterMap_cons_none program.comment?_listedOrigin, hcode, List.append_nil]

theorem documentRead_bareListing {program : Program} (h : program.metadata.IsTidy) {start : Int64}
    (hstart : (program.start : Int) = start.toInt) :
    ∃ line, Source.Document.read program.bareListing =
      .ok ⟨listedRecords line start program.code,
        program.metadata.comments.foldl Metadata.addComment {}⟩ := by
  obtain ⟨line, hrecords⟩ := readRecords_linesWith hstart
  refine ⟨line, ?_⟩
  rw [Source.Document.read, lines_bareListing h, hrecords, readMetadata_linesWith]
  rfl

theorem labels_codeRecords (line : Nat) (code : List Instruction) :
    Source.labels (codeRecords line code) = [] := by
  induction code generalizing line with
  | nil => rfl
  | cons insn code ih => exact ih (line + 1)

theorem yields_codeRecords (table : SymbolTable) (pc line : Nat) (start : Option Int64)
    (code : List Instruction) :
    Source.Yields table pc start (codeRecords line code) code start := by
  induction code generalizing pc line with
  | nil => exact ⟨rfl, .nil, nofun, rfl⟩
  | cons insn code ih =>
    rw [codeRecords, Source.yields_instruction_iff]
    exact ⟨insn, code, insn.resolves_draft table pc, ih (pc + 1) (line + 1), rfl⟩

theorem assembleRecords_listedRecords {code : List Instruction} {start : Int64} {program : Program}
    (h : Program.ofCode code start = .ok program) (line : Nat) :
    Source.assembleRecords (listedRecords line start code) = .ok program := by
  obtain ⟨rfl, hstart, hmetadata⟩ := Source.ofCode_eq_ok_iff.mp h
  have hlabels : Source.labels (listedRecords line start program.code) = [] :=
    labels_codeRecords (line + 1) program.code
  rw [Source.assembleRecords_eq_ok_iff, hlabels, listedRecords]
  refine ⟨List.nodup_nil, some start, Source.yields_origin_iff.mpr ⟨start, ?_, ?_⟩, hstart,
    hmetadata⟩
  · exact SymbolTable.evaluate_eq_ok_iff.mpr (.number start)
  · exact yields_codeRecords ..

/-- A listing without its column is a source of the program it lists, with the same code and the
same start. The metadata are the same if no entry is empty and no empty line ends the strategy. -/
theorem assemble_bareListing {code : List Instruction} {start : Int64} {program : Program}
    (hprogram : Program.ofCode code start = .ok program) {source : String}
    {document : Source.Document} (hread : Source.Document.read source = .ok document) :
    ∃ result,
      Program.assemble (bareListing { program with metadata := document.metadata }) = .ok result ∧
      result.code = program.code ∧ result.start = program.start ∧
      ((∀ key value, document.metadata.get key = some value → value ≠ "") →
        (∀ text, document.metadata.strategy = some text → text.toList.getLast? ≠ some '\n') →
        result.metadata = document.metadata) := by
  have htidy := Source.Document.isTidy_metadata hread
  obtain ⟨rfl, hstart, _⟩ := Source.ofCode_eq_ok_iff.mp hprogram
  let listed : Program := { program with metadata := document.metadata }
  have hlisted : ∃ line, Source.Document.read listed.bareListing = _ :=
    documentRead_bareListing htidy hstart
  obtain ⟨line, hdocument⟩ := hlisted
  have hassembled := assembleRecords_listedRecords hprogram line
  exact ⟨_, bind_eq_ok_iff.mpr ⟨_, hdocument, bind_eq_ok_iff.mpr ⟨program, hassembled, rfl⟩⟩, rfl,
    rfl, fun hne hlast => Metadata.foldl_comments htidy hne hlast⟩

def lateImp : Program where
  code := [.empty, ⟨.mov, .i, ⟨.direct, 0⟩, ⟨.direct, -1⟩⟩]
  start := 1
  start_lt := by decide

def lateRemarks : String := ";name  late\rImp \r\n ;Strategy wait\n;STRATEGY\n;strategy\trun  on\n"

theorem assemble_bareListing_lateImp :
    Source.Document.read lateRemarks =
      .ok ⟨[], { name := "late\rImp", strategy := "wait\n\nrun  on" }⟩ ∧
    bareListing { lateImp with
        metadata := { name := "late\rImp", strategy := "wait\n\nrun  on" } } =
      ";name late\rImp\n;strategy wait\n;strategy \n;strategy run  on\n" ++
        "        ORG 1\nDAT.F #0, #0\nMOV.I $0, $-1\n" ∧
    ∃ result, Program.assemble (bareListing { lateImp with
        metadata := { name := "late\rImp", strategy := "wait\n\nrun  on" } }) = .ok result ∧
      result.code = lateImp.code ∧ result.start = 1 ∧
      result.metadata = { name := "late\rImp", strategy := "wait\n\nrun  on" } := by
  have hread : Source.Document.read lateRemarks =
      .ok ⟨[], { name := "late\rImp", strategy := "wait\n\nrun  on" }⟩ := by decide +kernel
  have hprogram : Program.ofCode lateImp.code 1 = .ok lateImp :=
    Source.ofCode_eq_ok_iff.mpr ⟨rfl, by decide, rfl⟩
  obtain ⟨result, hresult, hcode, hstart, hmetadata⟩ := assemble_bareListing hprogram hread
  refine ⟨hread, by decide +kernel, result, hresult, hcode, hstart, hmetadata ?_ ?_⟩
  · rintro (_ | _ | _ | _ | _) value hvalue <;> cases hvalue <;> decide
  · rintro text ⟨⟩
    decide

end Program

end CoreWar
