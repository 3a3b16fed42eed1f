import EditorAgent.Go.TypeCheck
import EditorAgent.Proofs.Go.Containment
import EditorAgent.Proofs.Go.ModuleCache

/-!
# A tree that many contexts share

Lookups in several contexts note different answers in one tree, under keys that do not tell all that the contexts differ
in. What they leave alone is what the tree says of the disk: it goes on to show every entry that is there.
-/

namespace EditorAgent.Go

open Vfs

variable {d : Disk} {b : BuildContext} {t : Tree} {n : NodeId} {ns : List String} {importPath srcDir : String}

/-- Notes of the kinds that their keys ask for. -/
def Typed : List String → CacheKey → CacheValue → Prop
  | _, .modEnabled _, .flag _ => True
  | _, .find _ _, .found _ => True
  | _, _, _ => False

theorem not_typed_package (key : PackageKey) (ns : List String) (x : CacheValue) : ¬ Typed ns (.package key) x := by
  cases x <;> exact id

theorem exists_of_typed_find {k : SourceDir} {x : CacheValue} (h : Typed ns (.find k importPath) x) :
    ∃ r, x = .found r := by
  cases x with
  | found r => exact ⟨r, rfl⟩
  | _ => exact absurd h id

/-- A tree that shows what is on the disk, and on which anything may be noted. -/
abbrev Shows (d : Disk) (t : Tree) : Prop := Coherent (shown d) d Typed t

/-! ## Lookups -/

theorem gives_readFlag_typed {k : SourceDir} {init : StateM Tree Bool} (ht : Shows d t) (hn : Stands t n ns)
    (hinit : ∀ t₁, Shows d t₁ → Gives (shown d) d Typed init t₁ fun _ _ => True) :
    Gives (shown d) d Typed (readFlag n (.modEnabled k) init) t fun _ _ => True := by
  refine (gives_readNote ht hn fun t₁ ht₁ => ?_).bind fun x t₁ ht₁ _ _ => ?_
  · exact (hinit t₁ ht₁).bind fun x t₂ ht₂ _ _ => .pure ht₂ trivial
  · cases x with
    | flag x => exact .pure ht₁ trivial
    | _ => exact hinit t₁ ht₁

theorem gives_modEnabled (hp : d.Named) (b : BuildContext) (srcDir : String) (ht : Shows d t) :
    Gives (shown d) d Typed (modEnabled d b srcDir) t fun _ _ => True := by
  rw [modEnabled]
  split
  · exact .pure ht trivial
  · exact .pure ht trivial
  · refine (gives_nodeAt ht (askable_shown _)).bind fun n t₁ ht₁ _ hn => gives_readFlag_typed ht₁ hn fun t₂ ht₂ => ?_
    obtain ⟨_, -, hmodule⟩ : Settled (shown d) d Typed (inModule d b (Path.clean srcDir)) (· = liesInModule d b (Path.clean srcDir)) :=
      settled_inModule hp b (askable_shown _)
    exact (hmodule t₂ ht₂).mono fun _ _ _ _ _ => trivial

theorem gives_findInModule_typed (hp : d.Named) (ht : Shows d t) :
    Gives (shown d) d Typed (findInModule d b importPath srcDir) t fun _ _ => True := by
  cases hmod : modFileAt d srcDir with
  | none =>
    refine (gives_modFile? hp (askable_shown _) ht).bind fun o t₁ ht₁ _ ho => ?_
    rw [hmod] at ho
    cases ho
    exact .pure ht₁ trivial
  | some place =>
    obtain ⟨ns, rfl, hpre, hfile⟩ := exists_of_modFileAt hmod
    have hns : ∀ s ∈ ns, IsName s := fun s hs => isName_of_mem_splitPath (hpre.subset hs)
    refine (gives_findInModule hp (askable_shown _) hmod (fun _ => exists_of_typed_find) (fun t₁ ht₁ => ?_) ht).mono
      fun _ _ _ _ _ => trivial
    exact (Description.gives_searchModule hp askable_shown hns hfile ht₁).mono fun _ _ _ _ _ => trivial

theorem gives_findInGopath_typed (hp : d.Named) (ht : Shows d t) :
    Gives (shown d) d Typed (findInGopath d b importPath srcDir) t fun _ _ => True := by
  refine (gives_nodeAt ht (askable_shown _)).bind fun n t₁ ht₁ _ hn => ?_
  refine (gives_readFound ht₁ hn (fun _ => exists_of_typed_find) fun t₂ ht₂ => ?_).mono fun _ _ _ _ _ => trivial
  exact (gives_searchRoots hp askable_shown ht₂).mono fun _ _ _ _ _ => trivial

/-- A lookup in any context leaves a tree that shows what is on the disk. -/
theorem gives_findPackage_typed (hp : d.Named) (b : BuildContext) (importPath srcDir : String) (ht : Shows d t) :
    Gives (shown d) d Typed (findPackage d b importPath srcDir) t fun _ _ => True := by
  rw [findPackage]
  split
  · exact (gives_hasGoFiles hp (askable_shown _) ht).bind fun x t₁ ht₁ _ _ => by cases x <;> exact .pure ht₁ trivial
  refine (gives_hasGoFiles hp (askable_shown _) ht).bind fun std t₁ ht₁ _ _ => ?_
  cases std with
  | true => exact .pure ht₁ trivial
  | false =>
    refine (gives_modEnabled hp b srcDir ht₁).bind fun enabled t₂ ht₂ _ _ => ?_
    cases enabled with
    | true => exact gives_findInModule_typed hp ht₂
    | false =>
      refine (gives_findInModCache hp askable_shown ht₂).bind fun o t₃ ht₃ _ _ => ?_
      cases o with
      | some p => exact .pure ht₃ trivial
      | none => exact gives_findInGopath_typed hp ht₃

/-! ## Looking at a file again -/

/-- A stat that is to be taken again says no less. -/
theorem gives_expire (ht : Shows d t) (hn : n < t.nodes.size) :
    Gives (shown d) d Typed (modify (expire n)) t fun _ _ => True := by
  have hframe : Frame t (expire n t) := .modifyNode rfl rfl rfl
  refine ⟨ht.modifyNode hn hframe (fun _ => id) (ht.sound n hn).stat rfl ?_, hframe, trivial⟩
  have hself : (expire n t).node n = { t.node n with fresh := false } := node_modifyNode_self _ hn
  have hstat : ((expire n t).node n).stat = (t.node n).stat := by rw [hself]
  have hchildren : ((expire n t).node n).children = (t.node n).children := by rw [hself]
  exact (ht.listed n hn).transfer (ht.sound n hn) hframe.toShape hn hstat hchildren

theorem gives_typeCheckRefresh (hp : d.Named) (path : String) (ht : Shows d t) :
    Gives (shown d) d Typed (TypeCheck.refresh d path) t fun _ _ => True := by
  refine (gives_nodeAt ht (askable_shown path)).bind fun n t₁ ht₁ _ hn => ?_
  refine (gives_expire ht₁ hn.lt).bind fun _ t₂ ht₂ hframe _ => ?_
  exact (gives_stat hp ht₂ (hn.shape hframe.toShape)).bind fun _ t₃ ht₃ _ _ => .pure ht₃ trivial

end EditorAgent.Go
