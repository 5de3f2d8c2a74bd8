import Mathlib.Data.List.Flatten
import ContractChecks.Proofs.PlannedJobs

/-!
# Legal packages

The declarations of a package as the language allows them, and what that says about the declarations
found in it.

* `LegalDecls`: no two functions or types share a name, nor do two methods of one type;
* `keys_packageItems`: what is found in a package is what its source declares;
* `nodup_functionNames`, `nodup_methodKeys`: the declarations found in a legal package have different
  names.
-/

namespace ContractChecks

namespace Decl

def typeName? : Decl → Option Text
  | .type t => some t.name
  | .interface i => some i.name
  | _ => none

/-- the functions that are declared, those of an interface with its name -/
def funcs : Decl → List (Option Text × FuncDecl)
  | .func f => [(none, f)]
  | .interface i => i.methods.map fun f => (some i.name, f)
  | _ => []

end Decl

namespace FuncDecl

def functionName? (interface? : Option Text) (f : FuncDecl) : Option Text :=
  match interface?, f.receiver with
  | none, none => some f.name
  | _, _ => none

def methodKey? (interface? : Option Text) (f : FuncDecl) : Option (Text × Text) :=
  match interface?, f.receiver with
  | some i, _ => some (i, f.name)
  | none, some r => some (r.type, f.name)
  | none, none => none

end FuncDecl

def declaredTypes (ds : List Decl) : List Text := ds.filterMap Decl.typeName?

def declaredFunctions (ds : List Decl) : List Text :=
  (ds.flatMap Decl.funcs).filterMap fun q => q.2.functionName? q.1

def declaredMethods (ds : List Decl) : List (Text × Text) :=
  (ds.flatMap Decl.funcs).filterMap fun q => q.2.methodKey? q.1

structure LegalDecls (ds : List Decl) : Prop where
  /-- no two types or functions share a name -/
  names : (declaredTypes ds ++ declaredFunctions ds).Nodup
  /-- no two methods of a type share a name -/
  methods : (declaredMethods ds).Nodup
  /-- methods belong to types of the package -/
  owners : ∀ k ∈ declaredMethods ds, isName k.1 = true ∧ k.1 ∈ declaredTypes ds

def packageDecls (ps : List SourcePackage) (path : Text) : List Decl :=
  (ps.filter fun p => p.path = path).flatMap fun p => p.files.flatMap SourceFile.decls

/-! ### declarations that are found -/

namespace Found

def functionName? (f : Found) : Option Text :=
  match f.decl.holder with
  | .package => some f.decl.name
  | _ => none

def methodKey? (f : Found) : Option (Text × Text) :=
  match f.decl.holder with
  | .receiver r _ => some (r.type, f.decl.name)
  | .interface i => some (i, f.decl.name)
  | .package => none

end Found

section
variable {κ : Type}

/-- the key of a declaration of the source is that of the declaration that is found -/
def AgreeOnFound (key : Found → Option κ) (key' : Option Text × FuncDecl → Option κ) : Prop :=
  ∀ (x : FileContext) (column : Nat) q g, (x.funcItem column q.1 q.2).found? = some g → key g = key' q

def keyIn (p : PackageInfo) (key : Found → Option κ) (f : Found) : Option κ :=
  if f.package = p then key f else none

theorem funcItem_eq_found {x : FileContext} {column : Nat} {interface? : Option Text} {f : FuncDecl}
    {g : Found} (h : (x.funcItem column interface? f).found? = some g) :
    g.package = x.package ∧ g.functionName? = f.functionName? interface? ∧
      g.methodKey? = f.methodKey? interface? := by
  obtain ⟨hpackage, hholder, hname⟩ : g.package = x.package ∧
      g.decl.holder = x.holder interface? f ∧ g.decl.name = f.name := by
    unfold FileContext.funcItem at h
    split at h
    · cases h
      exact ⟨rfl, rfl, rfl⟩
    · cases h
  refine ⟨hpackage, ?_⟩
  rw [Found.functionName?, Found.methodKey?, hholder, hname]
  unfold FileContext.holder FuncDecl.functionName? FuncDecl.methodKey?
  cases interface? with
  | some i => exact ⟨rfl, rfl⟩
  | none => cases f.receiver <;> exact ⟨rfl, rfl⟩

/-- the declarations among the items of a declaration of the source -/
theorem found_declItems (x : FileContext) (d : Decl) :
    (x.declItems d).filterMap Item.found? = d.funcs.filterMap fun q =>
      (x.funcItem (if q.1.isSome then 2 else 1) q.1 q.2).found? := by
  cases d with
  | type t => rfl
  | func f => rfl
  | interface i =>
    show ((i.methods.map _).filterMap _) = ((i.methods.map _).filterMap _)
    rw [List.filterMap_map, List.filterMap_map]
    rfl
  | assertion a =>
    show (x.assertionItem? a).toList.filterMap Item.found? = []
    rw [List.filterMap_eq_nil_iff]
    intro it hit
    have ha := Option.mem_toList.1 hit
    unfold FileContext.assertionItem? at ha
    simp only [Option.bind_eq_bind, Option.bind_eq_some_iff] at ha
    obtain ⟨i, -, t, -, ha⟩ := ha
    split at ha
    · cases ha
      rfl
    · cases ha

variable {key : Found → Option κ} {key' : Option Text × FuncDecl → Option κ}

theorem keys_declItems (hkey : AgreeOnFound key key') (p : PackageInfo) (x : FileContext) (d : Decl) :
    ((x.declItems d).filterMap fun it => it.found?.bind (keyIn p key)).Sublist
      (if x.package.path = p.path then d.funcs.filterMap key' else []) := by
  rw [← List.filterMap_filterMap, found_declItems, List.filterMap_filterMap]
  split
  case isTrue =>
    rw [List.filterMap_eq_flatMap_toList, List.filterMap_eq_flatMap_toList]
    refine List.Sublist.flatMap_right _ fun q _ => ?_
    cases hg : (x.funcItem (if q.1.isSome then 2 else 1) q.1 q.2).found? with
    | none => exact List.nil_sublist _
    | some g =>
      show (keyIn p key g).toList.Sublist _
      rw [keyIn, hkey _ _ _ _ hg]
      split
      · exact .refl _
      · exact List.nil_sublist _
  case isFalse hpath =>
    rw [List.sublist_nil, List.filterMap_eq_nil_iff]
    intro q _
    cases hg : (x.funcItem (if q.1.isSome then 2 else 1) q.1 q.2).found? with
    | none => rfl
    | some g =>
      show keyIn p key g = none
      rw [keyIn, if_neg]
      rintro rfl
      exact hpath (congrArg PackageInfo.path (funcItem_eq_found hg).1).symm

/-- the keys of the declarations in a package are among those that the source gives -/
theorem keys_packageItems (hkey : AgreeOnFound key key') (m : SourceModule) (u : Universe)
    (ps : List SourcePackage) (p : PackageInfo) :
    ((packageItems m u ps).filterMap fun it => it.found?.bind (keyIn p key)).Sublist
      (((packageDecls ps p.path).flatMap Decl.funcs).filterMap key') := by
  induction ps with
  | nil => exact .refl _
  | cons q ps ih =>
    have hitems : packageItems m u (q :: ps)
        = q.files.flatMap (fileItems m u q) ++ packageItems m u ps := List.flatMap_cons
    rw [hitems, List.filterMap_append]
    unfold packageDecls
    by_cases hpath : q.path = p.path
    · rw [List.filter_cons_of_pos (by simpa using hpath), List.flatMap_cons, List.flatMap_append,
        List.filterMap_append]
      refine List.Sublist.append ?_ ih
      rw [List.filterMap_flatMap, List.flatMap_assoc, List.filterMap_flatMap]
      refine List.Sublist.flatMap_right _ fun file _ => ?_
      unfold fileItems
      rw [List.filterMap_flatMap, List.filterMap_flatMap]
      refine List.Sublist.flatMap_right _ fun d _ => ?_
      have hdecl := keys_declItems hkey p (FileContext.of m u q file) d
      rwa [if_pos (show (FileContext.of m u q file).package.path = p.path from hpath)] at hdecl
    · have hnone : ((q.files.flatMap (fileItems m u q)).filterMap
          fun it => it.found?.bind (keyIn p key)) = [] := by
        rw [List.filterMap_eq_nil_iff]
        intro it hit
        obtain ⟨file, -, hit⟩ := List.mem_flatMap.1 hit
        obtain ⟨d, -, hit⟩ := List.mem_flatMap.1 hit
        have hdecl := keys_declItems hkey p (FileContext.of m u q file) d
        rw [if_neg (show ¬(FileContext.of m u q file).package.path = p.path from hpath),
          List.sublist_nil, List.filterMap_eq_nil_iff] at hdecl
        exact hdecl it hit
      rw [hnone, List.filter_cons_of_neg (by simpa using hpath)]
      exact ih

end

section
variable {o : LoadOptions} {m : SourceModule} {p : PackageInfo}

/-- no two functions that are found in a legal package have the same name -/
theorem nodup_functionNames
    (hlegal : LegalDecls (packageDecls (m.matched o.tests o.dir o.patterns) p.path)) :
    ((foundIn (loadedItems o m)).filterMap (keyIn p Found.functionName?)).Nodup := by
  have hkey : AgreeOnFound Found.functionName? fun q => q.2.functionName? q.1 :=
    fun x column q g hg => (funcItem_eq_found hg).2.1
  rw [(filterMap_foundIn_perm _ _).nodup_iff]
  exact (List.nodup_append.1 hlegal.names).2.1.sublist (keys_packageItems hkey _ _ _ _)

/-- no two methods of a type that are found in a legal package have the same name -/
theorem nodup_methodKeys
    (hlegal : LegalDecls (packageDecls (m.matched o.tests o.dir o.patterns) p.path)) :
    ((foundIn (loadedItems o m)).filterMap (keyIn p Found.methodKey?)).Nodup ∧
      ∀ f ∈ foundIn (loadedItems o m), f.package = p → ∀ k, f.methodKey? = some k →
        isName k.1 = true := by
  have hkey : AgreeOnFound Found.methodKey? fun q => q.2.methodKey? q.1 :=
    fun x column q g hg => (funcItem_eq_found hg).2.2
  have hsublist := keys_packageItems hkey m (Universe.of m o.tests)
    (m.matched o.tests o.dir o.patterns) p
  have hperm := filterMap_foundIn_perm (keyIn p Found.methodKey?) (loadedItems o m)
  refine ⟨hperm.nodup_iff.2 (hlegal.methods.sublist hsublist), fun f hf hp k hk => ?_⟩
  have hmem : k ∈ (foundIn (loadedItems o m)).filterMap (keyIn p Found.methodKey?) := by
    rw [List.mem_filterMap]
    exact ⟨f, hf, by rw [keyIn, if_pos hp, hk]⟩
  exact (hlegal.owners k (hsublist.subset (hperm.mem_iff.1 hmem))).1

end

end ContractChecks
