import Lowering.Proofs.FirstFault
import Lowering.Proofs.Scoping

/-!
# Which texts are compiled

A program that was read has no missing and no foreign parts: nothing is read as one. So the only
faults that lowering finds in it are those of names, and compilation succeeds exactly when the
text is read as a well-scoped program. Code that was lowered has no gaps, so it can always be
listed, and only a program without definitions has an empty listing.
-/

namespace Lowering

namespace Listing

theorem closedFrom_map_some (position : Nat) (code : Code) :
    closedFrom position (code.map some) = .ok code := by
  induction code generalizing position with
  | nil => rfl
  | cons i code ih =>
      rw [List.map_cons, closedFrom, ih]
      rfl

/-- Code without gaps can always be listed. -/
theorem append_map_some (buffer : String) (code : Code) :
    append buffer (code.map some) = .ok (buffer ++ code.listing) := by
  rw [append, closedFrom_map_some]
  rfl

end Listing

theorem Instr.line_ne_empty (i : Instr) : i.line ≠ "" := by
  cases i <;> simp [line]

/-- Every instruction has a line. -/
theorem Code.listing_eq_empty_iff (code : Code) : code.listing = "" ↔ code = [] := by
  cases code with
  | nil => exact iff_of_true rfl rfl
  | cons i code => simp [listing, i.line_ne_empty]

/-- The missing and foreign parts of a piece. -/
def Piece.holes : Piece → List String
  | .expr e => e.holes
  | .branch b => b.body.holes
  | .branches bs => holesInBranches bs
  | .definition d => d.body.holes
  | .program p => p.flatMap fun d => d.body.holes
  | _ => []

namespace Piece

theorem holes_of_items? {piece : Piece} {pieces : List Piece} (h : piece.items? = some pieces) :
    piece.holes = pieces.flatMap holes := by
  cases piece with
  | params names =>
      cases h
      simp [holes, List.flatMap_map]
  | branches bs =>
      cases h
      rw [holes, holesInBranches_eq, List.flatMap_map, List.flatMap_map]
      rfl
  | program p =>
      cases h
      rw [holes, List.flatMap_map]
      rfl
  | _ => cases h

theorem holes_of_node? {piece : Piece} {kind : NodeKind} {pieces : List Piece}
    (h : piece.node? = some (kind, pieces)) : piece.holes = pieces.flatMap holes := by
  rw [node?.eq_def] at h
  split at h
  all_goals cases h
  all_goals simp [holes, Expr.holes, Branch.body]

mutual

theorem ReadAs.holes_eq_nil {piece : Piece} {j : Json} : piece.ReadAs j → piece.holes = []
  | .noName => rfl
  | .name => rfl
  | .noWord => rfl
  | .word _ => rfl
  | .noItems list => by rw [holes_of_items? list, List.flatMap_nil]
  | .items list _ each => by rw [holes_of_items? list, each.holes_eq_nil]
  | .node node _ _ each => by rw [holes_of_node? node, each.holes_eq_nil]

theorem AllReadAs.holes_eq_nil {pieces : List Piece} {js : List Json} :
    AllReadAs pieces js → pieces.flatMap holes = []
  | .nil => rfl
  | .cons first rest => by
      rw [List.flatMap_cons, first.holes_eq_nil, rest.holes_eq_nil, List.append_nil]

end

end Piece

/-- What is read from bytes is read from the value of a legal document. -/
theorem Program.readAs_of_ofBytes {bytes : List UInt8} {p : Program} (h : ofBytes bytes = .ok p) :
    ∃ j : Json, (Piece.program p).ReadAs j := by
  rw [ofBytes, ofText] at h
  split at h
  · rename_i d hparse
    exact ⟨d.value, (decides_ofJson (Document.parse_eq_ok_iff.mp hparse).1.2.1).ok_iff.mp h⟩
  · cases h

theorem Program.holes_of_ofBytes {bytes : List UInt8} {p : Program} (h : ofBytes bytes = .ok p) :
    ∀ d ∈ p, d.body.holes = [] := by
  obtain ⟨j, hj⟩ := readAs_of_ofBytes h
  exact List.flatMap_eq_nil_iff.mp hj.holes_eq_nil

namespace Compiler

variable {mode : Dispatch} {p : Program}

/-- A program without holes is only rejected for its names. -/
theorem cause_of_compile {f : LowerFailure} (hholes : ∀ d ∈ p, d.body.holes = [])
    (h : ((new mode).compile p).1 = .error f) :
    ∃ x, f.cause = .reserved x ∨ f.cause = .redefined x ∨ f.cause = .unbound x := by
  obtain hp | ⟨before, d, after, rfl, hbefore, hd⟩ := p.namesFree_or_clash
  · obtain ⟨d, hd, -, hfault⟩ := fault_of_compile hp h
    rw [hholes d hd] at hfault
    generalize f.cause = cause at hfault
    cases hfault with
    | unsupported hole => cases hole
    | unbound => exact ⟨_, .inr (.inr rfl)⟩
  · rw [(compile_of_clash mode hbefore hd after).1] at h
    cases h
    refine ⟨d.name, ?_⟩
    rw [Failure.here, Def.nameError]
    split
    · exact .inl rfl
    · exact .inr (.inl rfl)

/-- Only a program without definitions has no code. -/
theorem code_eq_nil_iff {code : Code} (h : ((new mode).compile p).1 = .ok code) :
    code = [] ↔ p = [] := by
  obtain ⟨-, fs, -, rfl⟩ := compile_eq_ok h
  cases p with
  | nil => exact iff_of_true rfl rfl
  | cons d p => simp [Program.assemble]

end Compiler

/-- A text that is no program fails for that, a program that cannot be lowered fails for that, and
all others are listed. -/
theorem compile_cases (mode : Dispatch) (bytes : List UInt8) :
    (∃ f, Program.ofBytes bytes = .error f ∧ compile mode bytes = .error (.decode f)) ∨
    ∃ p, Program.ofBytes bytes = .ok p ∧
      ((∃ f, ((Compiler.new mode).compile p).1 = .error f ∧
        compile mode bytes = .error (.lower f)) ∨
      ∃ code, ((Compiler.new mode).compile p).1 = .ok code ∧
        compile mode bytes = .ok code.listing) := by
  rw [compile]
  cases Program.ofBytes bytes with
  | error f => exact .inl ⟨f, rfl, rfl⟩
  | ok p =>
      refine .inr ⟨p, rfl, ?_⟩
      cases hcode : ((Compiler.new mode).compile p).1 with
      | error f =>
          refine .inl ⟨f, rfl, ?_⟩
          simp only [Except.mapError, bind, Except.bind, hcode]
      | ok code =>
          refine .inr ⟨code, rfl, ?_⟩
          simp only [Except.mapError, bind, Except.bind, hcode, Listing.append_map_some,
            String.empty_append]

/-- Compilation gives a text or a failure, and never both. Listing never fails, and the parts of a
program that was read are all supported, so that lowering can only report a name that is reserved,
repeated or unbound. Hence the texts that are compiled are those of well-scoped programs, and the
listing is empty just for the program without definitions. -/
theorem compile_all_or_nothing (mode : Dispatch) (bytes : List UInt8) :
    ((∃ text, compile mode bytes = .ok text) ↔ ¬ ∃ f, compile mode bytes = .error f) ∧
    (∀ gap, compile mode bytes ≠ .error (.list gap)) ∧
    (∀ f, compile mode bytes = .error (.decode f) ↔ Program.ofBytes bytes = .error f) ∧
    (∀ p, Program.ofBytes bytes = .ok p →
      (∀ d ∈ p, d.body.holes = []) ∧
      (∀ f, compile mode bytes = .error (.lower f) →
        ∃ x, f.cause = .reserved x ∨ f.cause = .redefined x ∨ f.cause = .unbound x) ∧
      (∀ code, ((Compiler.new mode).compile p).1 = .ok code →
        Listing.append "" (code.map some) = .ok code.listing ∧
        compile mode bytes = .ok code.listing) ∧
      ∀ text, compile mode bytes = .ok text → (text = "" ↔ p = [])) ∧
    ((∃ text, compile mode bytes = .ok text) ↔
      ∃ p, Program.ofBytes bytes = .ok p ∧ p.WellScoped) := by
  obtain ⟨f, hread, hcompile⟩ | ⟨p, hread, ⟨f, hlower, hcompile⟩ | ⟨code, hlower, hcompile⟩⟩ :=
    compile_cases mode bytes
  · simp [hread, hcompile]
  · have hholes := Program.holes_of_ofBytes hread
    have hscoped : ¬ p.WellScoped := by
      intro hp
      obtain ⟨code, hcode⟩ := Compiler.compile_of_wellScoped mode hp
      simp [hlower] at hcode
    refine ⟨by simp [hcompile], by simp [hcompile], by simp [hcompile, hread], ?_,
      by simp [hcompile, hread, hscoped]⟩
    rw [hread]
    rintro _ ⟨⟩
    refine ⟨hholes, fun g hg => ?_, by simp [hlower], by simp [hcompile]⟩
    cases hcompile.symm.trans hg
    exact Compiler.cause_of_compile hholes hlower
  · have hscoped := Compiler.wellScoped_of_compile hlower
    refine ⟨by simp [hcompile], by simp [hcompile], by simp [hcompile, hread], ?_,
      by simp [hcompile, hread, hscoped]⟩
    rw [hread]
    rintro _ ⟨⟩
    refine ⟨Program.holes_of_ofBytes hread, by simp [hcompile], fun c hc => ?_,
      fun text htext => ?_⟩
    · cases hlower.symm.trans hc
      exact ⟨Listing.append_map_some "" code, hcompile⟩
    · cases hcompile.symm.trans htext
      rw [Code.listing_eq_empty_iff, Compiler.code_eq_nil_iff hlower]

theorem Program.ofBytes_document {p : Program} (hholes : ∀ d ∈ p, d.body.holes = [])
    (hdepth : p.toJson.depth ≤ Json.maxDepth) :
    ofBytes (Utf8.encode p.document.spell) = .ok p := by
  rw [ofBytes_encode (document_writes hholes)]
  exact if_pos hdepth

/-- The name `g` is free in a branch. -/
def freeInBranch : Program :=
  [⟨"f", .letIn "x" (.num 1)
    (.caseOf (.var "x") [.mk "C" ["y", "y"] (.app (.var "g") (.var "y"))])⟩]

/-- The name `g` is that of a later definition. -/
def boundInBranch : Program := freeInBranch ++ [⟨"g", .lam "x" (.var "x")⟩]

/-- Nothing is listed while `g` is free, and the listing is not empty once it is defined. -/
theorem compile_all_or_nothing_inBranch :
    (∃ f x, compile .tag (Utf8.encode freeInBranch.document.spell) = .error (.lower f) ∧
      (f.cause = .reserved x ∨ f.cause = .redefined x ∨ f.cause = .unbound x)) ∧
    ∃ text, text ≠ "" ∧
      compile .tag (Utf8.encode boundInBranch.document.spell) = .ok text := by
  constructor
  · have hread : Program.ofBytes (Utf8.encode freeInBranch.document.spell) = .ok freeInBranch :=
      Program.ofBytes_document (by simp [freeInBranch, Expr.holes, holesInBranches]) (by decide)
    obtain ⟨htext, hgap, hdecode, hlower, hscoped⟩ :=
      compile_all_or_nothing .tag (Utf8.encode freeInBranch.document.spell)
    have hnone : ¬ ∃ text, compile .tag (Utf8.encode freeInBranch.document.spell) = .ok text := by
      rw [hscoped, hread]
      rintro ⟨_, ⟨⟩, hwell⟩
      have hbody := hwell.bodies _ (List.mem_singleton_self _)
      simp [freeInBranch, Expr.Scoped, BranchesScoped, isPrimitive, printIntName, printCharName]
        at hbody
    obtain ⟨f, hf⟩ := not_not.mp (mt htext.mpr hnone)
    cases f with
    | decode f =>
        rw [(hdecode f).mp hf] at hread
        cases hread
    | list gap => exact absurd hf (hgap gap)
    | lower f =>
        obtain ⟨x, hx⟩ := (hlower _ hread).2.1 f hf
        exact ⟨f, x, hf, hx⟩
  · have hread : Program.ofBytes (Utf8.encode boundInBranch.document.spell) = .ok boundInBranch :=
      Program.ofBytes_document
        (by simp [boundInBranch, freeInBranch, Expr.holes, holesInBranches]) (by decide)
    have hwell : boundInBranch.WellScoped := by
      refine ⟨⟨by decide +kernel, by decide⟩, ?_⟩
      simp [boundInBranch, freeInBranch, Expr.Scoped, BranchesScoped]
    obtain ⟨-, -, -, hlower, hscoped⟩ :=
      compile_all_or_nothing .tag (Utf8.encode boundInBranch.document.spell)
    obtain ⟨text, htext⟩ := hscoped.mpr ⟨_, hread, hwell⟩
    refine ⟨text, ?_, htext⟩
    rw [Ne, (hlower _ hread).2.2.2 text htext]
    simp [boundInBranch]

end Lowering
