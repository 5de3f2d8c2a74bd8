import ContractChecks.Proofs.Except
import ContractChecks.Proofs.Lists
import ContractChecks.Proofs.RenamingLaws
import ContractChecks.Wrapper.File

/-!
# Names that a file imports

The wrappers of a file share its imports.  They are merged by name, where a later wrapper replaces the
path of an earlier one, and the support package is imported beside them.  So a name means what a wrapper
expects exactly if all wrappers agree on it, and nobody else uses the name of the support package.

* `ImportSpec.introduces`: the name by which an import is known in the file;
* `mem_mergeImports`, `exists_mem_mergeImports`: what is left of the imports of the wrappers;
* `wantedImports path ws`: the names that the code uses, with the packages they stand for;
* `exists_wanted`, `mem_imports_of_wanted`: the imports of a file against those that are wanted;
* `GeneratedFile.Binds f n path`: exactly one import introduces `n`, and it is that of `path`;
* `GeneratedFile.Resolves`: the imports of all wrappers, and the support package, are bound;
* `ImportsAgree`: one path for each name; `render_resolves_iff`: nothing else is needed.
-/

namespace ContractChecks

/-! ### the name of an import -/

theorem pathBase_ne_nil (path : Text) : pathBase path ≠ [] := by
  unfold pathBase
  split
  · decide
  · split
    · decide
    · rename_i parts hne
      have hsome := List.getLast_mem hne
      have hpart := (List.mem_filter.1 hsome).2
      rw [List.getLastD_eq_getLast?, List.getLast?_eq_getLast_of_ne_nil hne]
      exact bne_iff_ne.1 hpart

namespace ImportSpec

/-- the name by which the import is known in the file -/
def introduces (i : ImportSpec) : Text := if i.name = [] then pathBase i.path else i.name

theorem introduces_ne_nil (i : ImportSpec) : i.introduces ≠ [] := by
  unfold introduces
  split
  · exact pathBase_ne_nil i.path
  · assumption

end ImportSpec

theorem introduces_importSpec {name path : Text} (h : name ≠ []) :
    (importSpec name path).introduces = name := by
  unfold importSpec ImportSpec.introduces
  by_cases hbase : name = pathBase path
  · rw [if_pos hbase, if_pos rfl, hbase]
  · rw [if_neg hbase, if_neg h]

/-! ### merged imports -/

theorem Renaming.mem_set {f : Renaming} {name target : Text} {e : Text × Text}
    (h : e ∈ f.set name target) : e ∈ f ∨ e = (name, target) := by
  unfold Renaming.set at h
  split at h
  · obtain ⟨p, hp, heq⟩ := List.mem_map.1 h
    split at heq
    · exact .inr heq.symm
    · exact .inl (heq ▸ hp)
  · rcases List.mem_append.1 h with h | h
    · exact .inl h
    · exact .inr (List.mem_singleton.1 h)

theorem mem_foldl_set {f : Renaming} {es : List (Text × Text)} {e : Text × Text}
    (h : e ∈ es.foldl (fun f e => Renaming.set f e.1 e.2) f) : e ∈ f ∨ e ∈ es := by
  induction es generalizing f with
  | nil => exact .inl h
  | cons d es ih =>
    rcases ih h with h | h
    · rcases Renaming.mem_set h with h | rfl
      · exact .inl h
      · exact .inr List.mem_cons_self
    · exact .inr (List.mem_cons_of_mem d h)

theorem isSome_get?_foldl_set {f : Renaming} {es : List (Text × Text)} {n : Text}
    (h : (f.get? n).isSome = true ∨ ∃ e ∈ es, e.1 = n) :
    (Renaming.get? (es.foldl (fun f e => Renaming.set f e.1 e.2) f) n).isSome = true := by
  induction es generalizing f with
  | nil =>
    rcases h with h | ⟨e, he, -⟩
    · exact h
    · cases he
  | cons d es ih =>
    refine ih ?_
    rw [Renaming.get?_set]
    rcases h with h | ⟨e, he, rfl⟩
    · left
      split
      · rfl
      · exact h
    · rcases List.mem_cons.1 he with rfl | he
      · left
        rw [if_pos rfl]
        rfl
      · exact .inr ⟨e, he, rfl⟩

def allImports (ws : List PackagedWrapper) : Imports := ws.flatMap PackagedWrapper.imports

theorem mem_mergeImports {ws : List PackagedWrapper} {e : Text × Text} (h : e ∈ mergeImports ws) :
    e ∈ allImports ws := (mem_foldl_set h).resolve_left List.not_mem_nil

/-- every name is kept, with some path -/
theorem exists_mem_mergeImports {ws : List PackagedWrapper} {e : Text × Text}
    (h : e ∈ allImports ws) : ∃ path, (e.1, path) ∈ mergeImports ws := by
  have hsome : (Renaming.get? (mergeImports ws) e.1).isSome = true :=
    isSome_get?_foldl_set (.inr ⟨e, h, rfl⟩)
  obtain ⟨path, hpath⟩ := Option.isSome_iff_exists.1 hsome
  exact ⟨path, Renaming.mem_of_get? hpath⟩

/-! ### the imports of a file -/

theorem mem_fileImports {usesSupport : Bool} {imports : Imports} {i : ImportSpec} :
    i ∈ fileImports usesSupport imports ↔
      usesSupport = true ∧ i = ⟨[], supportPath⟩ ∨ ∃ e ∈ imports, i = importSpec e.1 e.2 := by
  unfold fileImports
  rw [(List.mergeSort_perm _ _).mem_iff, List.mem_eraseDups, List.mem_append, List.mem_map]
  refine or_congr ?_ (exists_congr fun e => and_congr_right fun _ => eq_comm)
  cases usesSupport <;> simp

theorem nodup_fileImports (usesSupport : Bool) (imports : Imports) :
    (fileImports usesSupport imports).Nodup :=
  (List.mergeSort_perm _ _).nodup_iff.2 (nodup_eraseDups _)

/-- whether the code of the wrappers, in a package of the given path, names the support package -/
def namesSupport (path : Text) (ws : List PackagedWrapper) : Bool :=
  (ws.any fun w => w.wrapper.stmts.any fun s => s.action.kind.usesSupport) && path != supportPath

namespace GeneratedFile

variable {f : GeneratedFile}

/-- the wrappers that go into the file -/
def chosen (test : Bool) (ws : List PackagedWrapper) : List PackagedWrapper :=
  ws.filter fun w => w.test == test

theorem imports_of_render {path package : Text} {test : Bool} {ws : List PackagedWrapper}
    (h : render path package test ws = .ok (some f)) :
    f.imports = fileImports (namesSupport path (chosen test ws)) (mergeImports (chosen test ws)) := by
  obtain ⟨sources, -, hfile⟩ := except_bind_eq_ok h
  split at hfile
  · cases hfile
  · cases hfile
    rfl

theorem exists_file (path package : Text) (test : Bool) (ws : List PackagedWrapper)
    (h : (render path package test ws).toOption.any Option.isSome = true) :
    ∃ f, render path package test ws = .ok (some f) := by
  obtain ⟨file, hrender, hsome⟩ := exists_eq_ok h
  obtain ⟨f, rfl⟩ := Option.isSome_iff_exists.1 hsome
  exact ⟨f, hrender⟩

/-! ### bindings -/

/-- exactly one import introduces the name, and it is that of the path -/
def Binds (f : GeneratedFile) (name path : Text) : Prop :=
  ∃ i, (f.imports.filter fun i => i.introduces = name) = [i] ∧ i.path = path

theorem Binds.path_unique {name path path' : Text} (h : f.Binds name path)
    (h' : f.Binds name path') : path = path' := by
  obtain ⟨i, hi, rfl⟩ := h
  obtain ⟨j, hj, rfl⟩ := h'
  rw [hi] at hj
  exact congrArg ImportSpec.path (List.singleton_inj.1 hj)

theorem Binds.exists_mem {name path : Text} (h : f.Binds name path) :
    ∃ i ∈ f.imports, i.introduces = name ∧ i.path = path := by
  obtain ⟨i, hi, hpath⟩ := h
  have hmem : i ∈ f.imports.filter fun i => i.introduces = name := by
    rw [hi]
    exact List.mem_singleton_self i
  obtain ⟨hmem, hname⟩ := List.mem_filter.1 hmem
  exact ⟨i, hmem, of_decide_eq_true hname, hpath⟩

theorem binds_of_unique (hnodup : f.imports.Nodup) {i : ImportSpec} (hi : i ∈ f.imports)
    (honly : ∀ j ∈ f.imports, j.introduces = i.introduces → j = i) :
    f.Binds i.introduces i.path := by
  refine ⟨i, List.perm_singleton.1 ?_, rfl⟩
  refine (List.perm_ext_iff_of_nodup (hnodup.filter _) (List.nodup_singleton i)).2 fun j => ?_
  rw [List.mem_filter, List.mem_singleton, decide_eq_true_eq]
  constructor
  · rintro ⟨hj, hname⟩
    exact honly j hj hname
  · rintro rfl
    exact ⟨hi, rfl⟩

/-- the names that the wrappers import mean the packages they expect, and so does the name of the
support package if the code uses it -/
structure Resolves (f : GeneratedFile) (path : Text) (ws : List PackagedWrapper) : Prop where
  imports : ∀ w ∈ ws, ∀ e ∈ w.imports, f.Binds e.1 e.2
  support : namesSupport path ws = true → f.Binds supportName supportPath

end GeneratedFile

/-! ### what the wrappers want -/

section

variable {path : Text} {ws : List PackagedWrapper}

/-- the names that the code of the wrappers uses, with the packages they stand for -/
def wantedImports (path : Text) (ws : List PackagedWrapper) : Imports :=
  (if namesSupport path ws then [(supportName, supportPath)] else []) ++ allImports ws

theorem mem_wantedImports {e : Text × Text} :
    e ∈ wantedImports path ws ↔
      namesSupport path ws = true ∧ e = (supportName, supportPath) ∨ e ∈ allImports ws := by
  unfold wantedImports
  rw [List.mem_append]
  cases namesSupport path ws <;> simp

theorem resolves_iff {f : GeneratedFile} :
    f.Resolves path ws ↔ ∀ e ∈ wantedImports path ws, f.Binds e.1 e.2 := by
  constructor
  · intro h e he
    rcases mem_wantedImports.1 he with ⟨hsupport, rfl⟩ | he
    · exact h.support hsupport
    · obtain ⟨w, hw, he⟩ := List.mem_flatMap.1 he
      exact h.imports w hw e he
  · intro h
    refine ⟨fun w hw e he => ?_, fun hsupport => ?_⟩
    · exact h e (mem_wantedImports.2 (.inr (List.mem_flatMap.2 ⟨w, hw, he⟩)))
    · exact h _ (mem_wantedImports.2 (.inl ⟨hsupport, rfl⟩))

/-- a name that is bound once stands for one package -/
theorem GeneratedFile.Resolves.agree {f : GeneratedFile} (h : f.Resolves path ws) {e d : Text × Text}
    (he : e ∈ wantedImports path ws) (hd : d ∈ wantedImports path ws) (hname : e.1 = d.1) :
    e.2 = d.2 := by
  have hother := resolves_iff.1 h d hd
  rw [← hname] at hother
  exact (resolves_iff.1 h e he).path_unique hother

theorem exists_not_resolves {package : Text} {test : Bool} {e d : Text × Text}
    (hfile : (GeneratedFile.render path package test ws).toOption.any Option.isSome = true)
    (he : e ∈ wantedImports path (GeneratedFile.chosen test ws))
    (hd : d ∈ wantedImports path (GeneratedFile.chosen test ws)) (hname : e.1 = d.1)
    (hpath : e.2 ≠ d.2) :
    ∃ f, GeneratedFile.render path package test ws = .ok (some f) ∧
      ¬f.Resolves path (GeneratedFile.chosen test ws) := by
  obtain ⟨f, hrender⟩ := GeneratedFile.exists_file path package test ws hfile
  exact ⟨f, hrender, fun hresolves => hpath (hresolves.agree he hd hname)⟩

/-- every name is one, and none stands for two packages -/
structure ImportsAgree (path : Text) (ws : List PackagedWrapper) : Prop where
  named : ∀ e ∈ wantedImports path ws, e.1 ≠ []
  agree : ∀ e ∈ wantedImports path ws, ∀ d ∈ wantedImports path ws, e.1 = d.1 → e.2 = d.2

theorem importSpec_support : importSpec supportName supportPath = ⟨[], supportPath⟩ := by
  decide +kernel

theorem exists_wanted {i : ImportSpec}
    (h : i ∈ fileImports (namesSupport path ws) (mergeImports ws)) :
    ∃ e ∈ wantedImports path ws, i = importSpec e.1 e.2 := by
  rcases mem_fileImports.1 h with ⟨hsupport, rfl⟩ | ⟨e, he, rfl⟩
  · exact ⟨_, mem_wantedImports.2 (.inl ⟨hsupport, rfl⟩), importSpec_support.symm⟩
  · exact ⟨e, mem_wantedImports.2 (.inr (mem_mergeImports he)), rfl⟩

theorem mem_imports_of_wanted (h : ImportsAgree path ws) {e : Text × Text}
    (he : e ∈ wantedImports path ws) :
    importSpec e.1 e.2 ∈ fileImports (namesSupport path ws) (mergeImports ws) := by
  rcases mem_wantedImports.1 he with ⟨hsupport, rfl⟩ | hown
  · exact mem_fileImports.2 (.inl ⟨hsupport, importSpec_support⟩)
  · -- the path that is left for the name is the one wanted, since there is no other
    obtain ⟨p, hp⟩ := exists_mem_mergeImports hown
    have hwanted : (e.1, p) ∈ wantedImports path ws :=
      mem_wantedImports.2 (.inr (mem_mergeImports hp))
    have hpath := h.agree e he _ hwanted rfl
    exact mem_fileImports.2 (.inr ⟨(e.1, p), hp, congrArg (importSpec e.1) hpath⟩)

theorem ImportsAgree.eq_of_introduces (h : ImportsAgree path ws) {e d : Text × Text}
    (he : e ∈ wantedImports path ws) (hd : d ∈ wantedImports path ws)
    (hname : (importSpec d.1 d.2).introduces = (importSpec e.1 e.2).introduces) :
    importSpec d.1 d.2 = importSpec e.1 e.2 := by
  rw [introduces_importSpec (h.named d hd), introduces_importSpec (h.named e he)] at hname
  rw [hname, h.agree d hd e he hname]

end

/-- **When a file resolves the imports of its wrappers.**  Every name that a wrapper imports, and the
name of the support package, is introduced by exactly one import of the file, that of the path expected,
if and only if no name is empty and none is wanted for two different packages. -/
theorem render_resolves_iff {path package : Text} {test : Bool} {ws : List PackagedWrapper}
    {f : GeneratedFile} (h : GeneratedFile.render path package test ws = .ok (some f)) :
    f.Resolves path (GeneratedFile.chosen test ws) ↔
      ImportsAgree path (GeneratedFile.chosen test ws) := by
  have himports := GeneratedFile.imports_of_render h
  constructor
  · intro hresolves
    refine ⟨fun e he hnil => ?_, fun e he d hd => hresolves.agree he hd⟩
    obtain ⟨i, -, hname, -⟩ := (resolves_iff.1 hresolves e he).exists_mem
    exact i.introduces_ne_nil (hname.trans hnil)
  · intro hagree
    refine resolves_iff.2 fun e he => ?_
    have hmem := mem_imports_of_wanted hagree he
    rw [← himports] at hmem
    have hnodup : f.imports.Nodup := himports ▸ nodup_fileImports _ _
    have hbinds := GeneratedFile.binds_of_unique hnodup hmem fun j hj hname => by
      rw [himports] at hj
      obtain ⟨d, hd, rfl⟩ := exists_wanted hj
      exact hagree.eq_of_introduces he hd hname
    rw [introduces_importSpec (hagree.named e he)] at hbinds
    exact hbinds

/-! ### wrappers that agree, and wrappers that do not -/

/-- a wrapper of a function with one check, and the imports of its code -/
def checkingWrapper (name check : Text) (imports : Imports) : PackagedWrapper where
  wrapper := {
    name := "racCheckPost" ++ name
    callTarget := name ++ "(s)"
    params := [⟨"s", "string", false⟩]
    stmts := [.leaf { phase := .checkPrecondition, kind := .check, text := check }] }
  imports := imports

def titleWrappers : List PackagedWrapper := [
  checkingWrapper "Title" "str.ToUpper(s) != s" [("str", "strings")],
  checkingWrapper "Rune" "str.Contains(s, \"x\") && utf8.Valid(s)"
    [("str", "strings"), ("utf8", "unicode/utf8")]]

theorem render_resolves_titleWrappers :
    ∃ f, GeneratedFile.render "example.com/p" "p" false titleWrappers = .ok (some f) ∧
      ImportsAgree "example.com/p" (GeneratedFile.chosen false titleWrappers) ∧
      f.Resolves "example.com/p" (GeneratedFile.chosen false titleWrappers) := by
  obtain ⟨f, hrender⟩ := GeneratedFile.exists_file "example.com/p" "p" false titleWrappers
    (by decide +kernel)
  have hagree : ImportsAgree "example.com/p" (GeneratedFile.chosen false titleWrappers) :=
    ⟨by decide +kernel, by decide +kernel⟩
  exact ⟨f, hrender, hagree, (render_resolves_iff hrender).2 hagree⟩

/-- one name for two packages, in two wrappers -/
def codecWrappers : List PackagedWrapper := [
  checkingWrapper "Pack" "codec.Valid(s)" [("codec", "example.com/json")],
  checkingWrapper "Seal" "codec.Valid(s)" [("codec", "example.com/xml")]]

/-- the name of the support package for another one -/
def raceWrappers : List PackagedWrapper := [
  checkingWrapper "Race" "rac.Valid(s)" [("rac", "example.com/rac")]]

theorem not_resolves_codecWrappers :
    (∃ f, GeneratedFile.render "example.com/p" "p" false codecWrappers = .ok (some f) ∧
      ¬f.Resolves "example.com/p" (GeneratedFile.chosen false codecWrappers)) ∧
      ∃ f, GeneratedFile.render "example.com/p" "p" false raceWrappers = .ok (some f) ∧
        ¬f.Resolves "example.com/p" (GeneratedFile.chosen false raceWrappers) := by
  constructor
  · exact exists_not_resolves (e := ("codec", "example.com/json")) (d := ("codec", "example.com/xml"))
      (by decide +kernel) (by decide +kernel) (by decide +kernel) rfl (by decide)
  · exact exists_not_resolves (e := (supportName, supportPath)) (d := ("rac", "example.com/rac"))
      (by decide +kernel) (by decide +kernel) (by decide +kernel) rfl (by decide)

end ContractChecks
