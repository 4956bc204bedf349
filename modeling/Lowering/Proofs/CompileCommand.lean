import Lowering.Command.Run
import Lowering.Proofs.WorkspaceFiles

/-!
# The compile command writes everything or nothing

All files are read and compiled before anything is put out, and reading leaves the world as it
is. So the listings are those of the files as they were (`listings_of_compiles`), and the first
file that cannot be read or compiled ends the command with nothing done (`listings_of_fails`).
This holds in any world with lawful files, whichever library reads the command line.
-/

namespace Lowering.Command

/-- A command that is run in a world `σ`. -/
abbrev Running (σ α : Type) := ExceptT CommandError (StateM σ) α

section Running

variable {σ α β : Type} {x : Running σ α} {f : α → Running σ β} {s t : σ}

theorem bind_of_ok {a : α} (h : x s = (.ok a, t)) : (x >>= f) s = f a t := by
  simp only [bind, ExceptT.bind, ExceptT.mk, StateT.bind, h]
  rfl

theorem bind_of_error {e : CommandError} (h : x s = (.error e, t)) :
    (x >>= f) s = (.error e, t) := by
  simp only [bind, ExceptT.bind, ExceptT.mk, StateT.bind, h]
  rfl

theorem ofExcept_apply (result : Except CommandError α) (s : σ) :
    (ofExcept result : Running σ α) s = (result, s) := rfl

theorem onFile_apply {x : StateM σ (Except FileError α)} {result : Except FileError α}
    (h : x s = (result, t)) (wrap : FileError → CommandError) :
    (onFile wrap x : Running σ α) s = (result.mapError wrap, t) := by
  simp only [onFile, ExceptT.mk, bind, StateT.bind, h]
  rfl

theorem lift_apply {x : StateM σ α} {a : α} (h : x s = (a, t)) :
    (ExceptT.lift x : Running σ α) s = (.ok a, t) := by
  simp only [ExceptT.lift, ExceptT.mk, Functor.map, StateT.map, h]
  rfl

end Running

/-- The file can be read, and the program in it compiles to the listing `text`. -/
def Compiles (contents : Contents) (mode : Dispatch) (file text : String) : Prop :=
  ∃ bytes, contents file = .ok bytes ∧ Lowering.compile mode bytes = .ok text

/-- The file is missing or cannot be read for another reason, or the program in it does not
compile. -/
inductive Fails (contents : Contents) (mode : Dispatch) (file : String) :
    CommandError → Prop where
  | read {error : FileError} (hread : contents file = .error error) :
      Fails contents mode file (.compileRead file error)
  | compile {bytes : List UInt8} {failure : CompileFailure} (hread : contents file = .ok bytes)
      (hcompile : Lowering.compile mode bytes = .error failure) :
      Fails contents mode file (.compileFile file failure)

variable {contents : Contents} {mode : Dispatch} {file text : String} {files before : List String}
  {e : CommandError}

theorem compiles_or_fails (contents : Contents) (mode : Dispatch) (file : String) :
    (∃ text, Compiles contents mode file text) ∨ ∃ e, Fails contents mode file e := by
  cases hread : contents file with
  | error error => exact .inr ⟨_, .read hread⟩
  | ok bytes =>
      cases hcompile : Lowering.compile mode bytes with
      | error failure => exact .inr ⟨_, .compile hread hcompile⟩
      | ok text => exact .inl ⟨text, bytes, hread, hcompile⟩

theorem Compiles.not_fails (h : Compiles contents mode file text) :
    ¬ Fails contents mode file e := by
  obtain ⟨bytes, hread, hcompile⟩ := h
  intro hfails
  cases hfails with
  | read hread' => cases hread.symm.trans hread'
  | compile hread' hcompile' =>
      cases hread.symm.trans hread'
      cases hcompile.symm.trans hcompile'

/-- The first of the files that fails, with its error. -/
def FirstFails (contents : Contents) (mode : Dispatch) (files : List String) (e : CommandError) :
    Prop :=
  ∃ before file later, files = before ++ file :: later ∧
    (∀ f ∈ before, ∃ text, Compiles contents mode f text) ∧ Fails contents mode file e

/-- Either all files compile, or one of them is the first that does not. -/
theorem allCompile_or_firstFails (contents : Contents) (mode : Dispatch) (files : List String) :
    (∀ file ∈ files, ∃ text, Compiles contents mode file text) ∨
      ∃ e, FirstFails contents mode files e := by
  induction files with
  | nil => exact .inl (List.forall_mem_nil _)
  | cons file files ih =>
      rcases compiles_or_fails contents mode file with hfile | ⟨e, he⟩
      · rcases ih with hfiles | ⟨e, before, f, later, rfl, hbefore, hf⟩
        · exact .inl (List.forall_mem_cons.mpr ⟨hfile, hfiles⟩)
        · exact .inr ⟨e, file :: before, f, later, rfl,
            List.forall_mem_cons.mpr ⟨hfile, hbefore⟩, hf⟩
      · exact .inr ⟨e, [], file, files, rfl, List.forall_mem_nil _, he⟩

/-- The listings of files that compile, in order. -/
theorem exists_texts (h : ∀ file ∈ files, ∃ text, Compiles contents mode file text) :
    ∃ texts, List.Forall₂ (Compiles contents mode) files texts := by
  induction files with
  | nil => exact ⟨[], .nil⟩
  | cons file files ih =>
      obtain ⟨⟨text, hfile⟩, hfiles⟩ := List.forall_mem_cons.mp h
      obtain ⟨texts, htexts⟩ := ih hfiles
      exact ⟨text :: texts, .cons hfile htexts⟩

section Run

variable {σ : Type} [FileStore (StateM σ)] {contents : σ → Contents} {printed : σ → String}
  {s t : σ}

theorem listings_cons (hstore : FileStore.Lawful contents printed)
    (h : Compiles (contents s) mode file text) (files : List String) :
    (listings mode (file :: files) : Running σ String) s =
      ((listings mode files : Running σ String) >>= fun others => pure (text ++ others)) s := by
  obtain ⟨bytes, hread, hcompile⟩ := h
  rw [listings, bind_of_ok (by rw [onFile_apply (hstore.read_eq file s), hread]; rfl),
    bind_of_ok (by rw [ofExcept_apply, hcompile]; rfl)]

theorem listings_of_compiles (hstore : FileStore.Lawful contents printed) {texts : List String}
    (h : List.Forall₂ (Compiles (contents s) mode) files texts) :
    (listings mode files : Running σ String) s = (.ok (String.join texts), s) := by
  induction h with
  | nil => rfl
  | cons hfile hfiles ih =>
      rw [listings_cons hstore hfile, bind_of_ok ih, String.join_cons]
      rfl

theorem listings_of_fails (hstore : FileStore.Lawful contents printed)
    (h : FirstFails (contents s) mode files e) :
    (listings mode files : Running σ String) s = (.error e, s) := by
  obtain ⟨before, file, later, rfl, hbefore, hfile⟩ := h
  induction before with
  | nil =>
      rw [List.nil_append, listings]
      cases hfile with
      | read hread =>
          rw [bind_of_error (by rw [onFile_apply (hstore.read_eq file s), hread]; rfl)]
      | compile hread hcompile =>
          rw [bind_of_ok (by rw [onFile_apply (hstore.read_eq file s), hread]; rfl),
            bind_of_error (by rw [ofExcept_apply, hcompile]; rfl)]
  | cons f before ih =>
      obtain ⟨text, hf⟩ := hbefore f List.mem_cons_self
      rw [List.cons_append, listings_cons hstore hf,
        bind_of_error (ih fun g hg => hbefore g (List.mem_cons_of_mem f hg))]

theorem putOut_print (h : (FileStore.print text : StateM σ _) s = (.ok (), t)) :
    (putOut "" text : Running σ Unit) s = (.ok (), t) := by
  rw [putOut, if_pos rfl, onFile_apply h]
  rfl

/-- With a name for the output, it is written between locking and unlocking. -/
theorem putOut_file {output : String} (houtput : output ≠ "") {held : FileStore.Lock (StateM σ)}
    {locked changed : σ} {written unlocked : Except FileError Unit}
    (hlock : (FileStore.lock (output ++ ".lock") : StateM σ _) s = (.ok held, locked))
    (hwrite : (FileStore.write output (Utf8.encode text.toList) : StateM σ _) locked =
      (written, changed))
    (hunlock : (FileStore.unlock held : StateM σ _) changed = (unlocked, t)) :
    (putOut output text : Running σ Unit) s = (underLock written unlocked, t) := by
  rw [putOut, if_neg houtput, writeLocked, bind_of_ok (onFile_apply hlock _),
    bind_of_ok (lift_apply hwrite), bind_of_ok (lift_apply hunlock), ofExcept_apply]

variable {lib : CommandLine} {words : List String} {args : Arguments}

theorem compile_eq (hmode : Dispatch.parse (args.value dispatchFlag) = .ok mode) (s : σ) :
    (compile args : Running σ Unit) s =
      ((listings mode args.operands : Running σ String) >>= putOut (args.value outputFlag)) s := by
  rw [compile, bind_of_ok (by rw [ofExcept_apply, hmode]; rfl)]

/-- The words call the compile command. -/
def CallsCompile (σ : Type) [FileStore (StateM σ)] (lib : CommandLine) (words : List String)
    (args : Arguments) : Prop :=
  lib.call [checkSpec (m := StateM σ), compileSpec] words = .ok (some (compileSpec, args))

theorem run_of_ok (hlib : lib.Lawful) (hcall : CallsCompile σ lib words args)
    (h : (compile args : Running σ Unit) s = (.ok (), t)) :
    (run lib words : StateM σ Ending) s = (⟨0, none⟩, t) := by
  rw [run, hcall]
  simp only [compileSpec, ExceptT.run, bind, StateT.bind, h]
  rw [← hlib.exitCode_ok]
  rfl

theorem run_of_error (hlib : lib.Lawful) (hcall : CallsCompile σ lib words args)
    (h : (compile args : Running σ Unit) s = (.error e, t)) :
    (run lib words : StateM σ Ending) s = (⟨1, some (lib.report "compile" e.message)⟩, t) := by
  rw [run, hcall]
  simp only [compileSpec, ExceptT.run, bind, StateT.bind, h]
  rw [← hlib.exitCode_failed]
  rfl

end Run

/-- A program of one definition. -/
def oneNumber : List UInt8 := Utf8.encode "[[\"Def\",\"x\",[\"ExprNumber\",1]]]".toList

def oneNumberListing : String :=
  Code.listing [.jump ⟨"x"⟩, .mark ⟨"x"⟩, .alloc (.virtual 3) 2, .movInt (.virtual 2) 1,
    .store (.virtual 3) 0 (.virtual 2), .movInt (.virtual 2) 1, .store (.virtual 3) 1 (.virtual 2),
    .movReg (.virtual 1) (.virtual 3), .movReg (.global "x") (.virtual 1)]

/-- A workspace with the program in a directory, and a file that is empty. -/
def shelf : Workspace where
  tree := .directory [("work", .directory [
    ("sub", .directory [("a.json", .file oneNumber)]), ("b.json", .file [])])]
  start := ["work"]

theorem compiles_iff_of_oneNumber {contents : Contents} (h : contents file = .ok oneNumber) :
    Compiles contents mode file text ↔ text = oneNumberListing := by
  have hcompile : Lowering.compile mode oneNumber = .ok oneNumberListing := by
    cases mode <;> decide +kernel
  constructor
  · rintro ⟨bytes, hbytes, htext⟩
    cases h.symm.trans hbytes
    exact Except.ok.inj (htext.symm.trans hcompile)
  · rintro rfl
    exact ⟨oneNumber, h, hcompile⟩

theorem callsCompile_standard {σ : Type} [FileStore (StateM σ)] {words : List String}
    {args : Arguments} (h : Arguments.parse [dispatchFlag, outputFlag] words = .ok args) :
    CallsCompile σ .standard ("compile" :: words) args := by
  simp [CallsCompile, CommandLine.standard, CommandLine.find, checkSpec, compileSpec, h]

end Lowering.Command
