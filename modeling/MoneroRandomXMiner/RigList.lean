import MoneroRandomXMiner.ConfigEdits
import Mathlib.Data.List.Nodup

/-!
# The list of available rigs

The UI state keeps the rigs as a map, and their names behind "default" as a
list of their own. `addRig` appends to the list also where the map has the name
already, and `removeRig` takes "default" out like any other name.
-/

namespace RigList

open Histories ConfigManager ConfigEdits
open MinerViewModel hiding next machine

variable {JsonText : Type} {gson : Gson JsonText}

def rigNames (rigs : Rigs) : List String := rigs.map Prod.fst

/-- The list names "default" and every rig once, and nothing else; the selected rig
is in it; and the rigs are those that are stored. -/
structure RigsListed (gson : Gson JsonText) (vm : ViewModel JsonText) : Prop where
  once : vm.ui.availableRigs.Nodup
  exactly : ∀ name, name ∈ vm.ui.availableRigs ↔
    name = "default" ∨ name ∈ rigNames vm.ui.additionalRigs
  selected : vm.ui.selectedRig ∈ vm.ui.availableRigs
  stored : vm.ui.additionalRigs = (vm.config gson).subaddress.additionalRigs

/-- A rig that is added has a new name, and "default" is neither removed nor imported. -/
def NamesFresh (gson : Gson JsonText) (vm : ViewModel JsonText) : Edit JsonText → Prop
  | .call (.addRig rigName _) =>
    rigName ≠ "default" ∧ rigName ∉ rigNames vm.ui.additionalRigs
  | .call (.removeRig rigName) => rigName ≠ "default"
  | .importConfigFromJson json =>
    ∀ config ∈ gson.fromJson json, "default" ∉ rigNames config.subaddress.additionalRigs
  | _ => True

/-- The names are listed as they should, and "default" is no rig of the map. -/
structure Inv (gson : Gson JsonText) (vm : ViewModel JsonText) : Prop where
  listed : RigsListed gson vm
  distinct : IsMap vm.ui.additionalRigs
  noDefault : "default" ∉ rigNames vm.ui.additionalRigs

theorem nodup_append_name {names : List String} {name : String} :
    (names ++ [name]).Nodup ↔ name ∉ names ∧ names.Nodup := by
  rw [← List.concat_eq_append, List.nodup_concat]

theorem rigNames_put_new {rigs : Rigs} {name : String} (value : String)
    (fresh : name ∉ rigNames rigs) : rigs.put name value = rigs ++ [(name, value)] := by
  rw [Rigs.put, if_neg]
  intro found
  obtain ⟨p, mem, hp⟩ := List.any_eq_true.mp found
  exact fresh (List.mem_map.mpr ⟨p, mem, by simpa using hp⟩)

theorem mem_rigNames_remove {rigs : Rigs} {name other : String} :
    other ∈ rigNames (rigs.remove name) ↔ other ∈ rigNames rigs ∧ other ≠ name := by
  simp only [rigNames, Rigs.remove, List.mem_map, List.mem_filter, bne_iff_ne]
  constructor
  · rintro ⟨p, ⟨mem, hp⟩, rfl⟩
    exact ⟨⟨p, mem, rfl⟩, hp⟩
  · rintro ⟨⟨p, mem, rfl⟩, hp⟩
    exact ⟨p, ⟨mem, hp⟩, rfl⟩

theorem isMap_remove {rigs : Rigs} (distinct : IsMap rigs) (name : String) :
    IsMap (rigs.remove name) := by
  exact distinct.sublist (List.filter_sublist.map Prod.fst)

/-- The stored configuration shows its rigs as it should exactly when none is "default". -/
theorem listed_load_iff {vm : ViewModel JsonText} {rigs : Rigs}
    (stored : (vm.config gson).subaddress.additionalRigs = rigs) (distinct : IsMap rigs) :
    RigsListed gson (loadSavedConfig gson vm) ↔ "default" ∉ rigNames rigs := by
  subst stored
  constructor
  · intro listed
    exact (List.nodup_cons.mp listed.once).1
  · intro noDefault
    refine ⟨List.nodup_cons.mpr ⟨noDefault, distinct⟩, ?_, List.mem_cons_self, rfl⟩
    intro name
    exact List.mem_cons

theorem inv_load_iff {vm : ViewModel JsonText} {rigs : Rigs}
    (stored : (vm.config gson).subaddress.additionalRigs = rigs) (distinct : IsMap rigs) :
    Inv gson (loadSavedConfig gson vm) ↔ "default" ∉ rigNames rigs := by
  have loads := listed_load_iff stored distinct
  subst stored
  exact ⟨fun inv => loads.mp inv.listed,
    fun noDefault => ⟨loads.mpr noDefault, distinct, noDefault⟩⟩

/-- What a step leaves alone that does not touch the rigs. -/
structure SameRigs (gson : Gson JsonText) (vm vm' : ViewModel JsonText) : Prop where
  additionalRigs : vm'.ui.additionalRigs = vm.ui.additionalRigs
  availableRigs : vm'.ui.availableRigs = vm.ui.availableRigs
  selectedRig : vm'.ui.selectedRig ∈ vm.ui.availableRigs
  stored : (vm'.config gson).subaddress.additionalRigs =
    (vm.config gson).subaddress.additionalRigs

theorem Inv.same {vm vm' : ViewModel JsonText} (inv : Inv gson vm)
    (same : SameRigs gson vm vm') : Inv gson vm' := by
  obtain ⟨listed, distinct, noDefault⟩ := inv
  refine ⟨⟨?_, ?_, ?_, ?_⟩, ?_, ?_⟩
  · rw [same.availableRigs]
    exact listed.once
  · intro name
    rw [same.availableRigs, same.additionalRigs]
    exact listed.exactly name
  · rw [same.availableRigs]
    exact same.selectedRig
  · rw [same.additionalRigs, same.stored]
    exact listed.stored
  · rw [same.additionalRigs]
    exact distinct
  · rw [same.additionalRigs]
    exact noDefault

theorem addRig_iff {vm : ViewModel JsonText} (inv : Inv gson vm) (rigName subaddress : String) :
    (RigsListed gson (addRig gson rigName subaddress vm) → NamesFresh gson vm
      (.call (.addRig rigName subaddress))) ∧
    (NamesFresh gson vm (.call (.addRig rigName subaddress)) →
      Inv gson (addRig gson rigName subaddress vm)) := by
  have listed := inv.listed
  constructor
  · intro after
    have once : (vm.ui.availableRigs ++ [rigName]).Nodup := after.once
    have absent := (nodup_append_name.mp once).1
    rw [listed.exactly rigName, not_or] at absent
    exact absent
  · rintro ⟨notDefault, fresh⟩
    have absent : rigName ∉ vm.ui.availableRigs := by
      rw [listed.exactly rigName, not_or]
      exact ⟨notDefault, fresh⟩
    have added : (addRig gson rigName subaddress vm).ui.additionalRigs =
        vm.ui.additionalRigs ++ [(rigName, subaddress)] := rigNames_put_new subaddress fresh
    have names : rigNames (vm.ui.additionalRigs ++ [(rigName, subaddress)]) =
        rigNames vm.ui.additionalRigs ++ [rigName] := by simp [rigNames]
    refine ⟨⟨?_, ?_, ?_, ?_⟩, ?_, ?_⟩
    · exact nodup_append_name.mpr ⟨absent, listed.once⟩
    · intro name
      rw [added, names, List.mem_append, ← or_assoc, ← listed.exactly name]
      exact List.mem_append
    · exact List.mem_append_left _ listed.selected
    · simp only [addRig, config_saveSubaddress]
      rfl
    · rw [added]
      have both := nodup_append_name.mpr ⟨fresh, inv.distinct⟩
      rw [← names] at both
      exact both
    · rw [added, names, List.mem_append, List.mem_singleton, not_or]
      exact ⟨inv.noDefault, Ne.symm notDefault⟩

theorem removeRig_iff {vm : ViewModel JsonText} (inv : Inv gson vm) (rigName : String) :
    (RigsListed gson (removeRig gson rigName vm) → rigName ≠ "default") ∧
    (rigName ≠ "default" → Inv gson (removeRig gson rigName vm)) := by
  have listed := inv.listed
  have available : ∀ name, name ∈ (removeRig gson rigName vm).ui.availableRigs ↔
      name ≠ rigName ∧ name ∈ vm.ui.availableRigs := fun name => listed.once.mem_erase_iff
  constructor
  · rintro after rfl
    have mem := (after.exactly "default").mpr (Or.inl rfl)
    exact ((available "default").mp mem).1 rfl
  · intro notDefault
    refine ⟨⟨?_, ?_, ?_, ?_⟩, ?_, ?_⟩
    · exact listed.once.erase rigName
    · intro name
      have removed : name ∈ rigNames (removeRig gson rigName vm).ui.additionalRigs ↔
          name ∈ rigNames vm.ui.additionalRigs ∧ name ≠ rigName := mem_rigNames_remove
      rw [available, listed.exactly, removed]
      constructor
      · rintro ⟨other, rfl | mem⟩
        · exact Or.inl rfl
        · exact Or.inr ⟨mem, other⟩
      · rintro (rfl | ⟨mem, other⟩)
        · exact ⟨Ne.symm notDefault, Or.inl rfl⟩
        · exact ⟨other, Or.inr mem⟩
    · rw [available]
      by_cases same : vm.ui.selectedRig = rigName
      · have back : (removeRig gson rigName vm).ui.selectedRig = "default" := if_pos same
        rw [back]
        exact ⟨Ne.symm notDefault, (listed.exactly _).mpr (Or.inl rfl)⟩
      · have kept : (removeRig gson rigName vm).ui.selectedRig = vm.ui.selectedRig := if_neg same
        rw [kept]
        exact ⟨same, listed.selected⟩
    · simp only [removeRig, config_saveSubaddress]
      rfl
    · exact isMap_remove inv.distinct rigName
    · intro mem
      exact inv.noDefault (mem_rigNames_remove.mp mem).1

theorem same_saveSubaddress {vm vm' : ViewModel JsonText} (f : SubaddressConfig → SubaddressConfig)
    (keeps : ∀ sub, (f sub).additionalRigs = sub.additionalRigs) (same : SameRigs gson vm vm') :
    SameRigs gson vm (saveSubaddress gson f vm') := by
  refine ⟨same.additionalRigs, same.availableRigs, same.selectedRig, ?_⟩
  rw [config_saveSubaddress, ← same.stored]
  exact keeps _

theorem same_startMining {vm : ViewModel JsonText}
    (selected : vm.ui.selectedRig ∈ vm.ui.availableRigs) :
    SameRigs gson vm (startMining gson vm) := by
  by_cases valid : Valid gson vm
  · have none : validationError gson vm = none := valid
    have stored := (startMining_valid valid).1
    simp only [startMining, none] at stored ⊢
    refine ⟨rfl, rfl, selected, ?_⟩
    rw [stored, miningConfig]
  · obtain ⟨toast, htoast⟩ := Option.ne_none_iff_exists'.mp valid
    simp only [startMining, htoast]
    exact ⟨rfl, rfl, selected, rfl⟩

/-- A load shows the rigs that are shown already, and none of them is "default". -/
theorem inv_reload {vm : ViewModel JsonText} (inv : Inv gson vm) :
    Inv gson (loadSavedConfig gson vm) := by
  exact (inv_load_iff inv.listed.stored.symm inv.distinct).mpr inv.noDefault

theorem import_iff {vm : ViewModel JsonText} (inv : Inv gson vm) {json : JsonText}
    (enabled : Enabled gson (.importConfigFromJson json)) :
    (RigsListed gson (importConfigFromJson gson json vm) →
      NamesFresh gson vm (.importConfigFromJson json)) ∧
    (NamesFresh gson vm (.importConfigFromJson json) →
      Inv gson (importConfigFromJson gson json vm)) := by
  simp only [importConfigFromJson, NamesFresh]
  cases read : gson.fromJson json with
  | none => exact ⟨fun _ _ hc => (nomatch hc), fun _ => inv_reload inv⟩
  | some config =>
    have distinct : IsMap config.subaddress.additionalRigs := enabled config read
    have imported : (ViewModel.config gson
        { vm with preferences := saveConfig gson config }).subaddress.additionalRigs =
          config.subaddress.additionalRigs := by
      rw [ViewModel.config, getConfig_saveConfig]
    simp only [Option.mem_some_iff, forall_eq']
    exact ⟨(listed_load_iff imported distinct).mp, (inv_load_iff imported distinct).mpr⟩

/-- A step from well listed rigs lists them well only with fresh names, and with fresh
names it keeps the whole invariant. -/
theorem next_iff {vm : ViewModel JsonText} (inv : Inv gson vm) {e : Edit JsonText}
    (enabled : Enabled gson e) :
    (RigsListed gson (next gson vm e) → NamesFresh gson vm e) ∧
    (NamesFresh gson vm e → Inv gson (next gson vm e)) := by
  have selected := inv.listed.selected
  cases e with
  | call op =>
    cases op with
    | addRig rigName subaddress => exact addRig_iff inv rigName subaddress
    | removeRig rigName => exact removeRig_iff inv rigName
    | selectRig rigName =>
      refine ⟨fun _ => trivial, fun _ => inv.same ?_⟩
      simp only [next, MinerViewModel.next, selectRig]
      split
      · rename_i listed
        exact ⟨rfl, rfl, listed, rfl⟩
      · exact ⟨rfl, rfl, selected, rfl⟩
    | toggleSubaddress on =>
      refine ⟨fun _ => trivial, fun _ => inv.same ?_⟩
      simp only [next, MinerViewModel.next, toggleSubaddress]
      exact same_saveSubaddress _ (fun _ => rfl) ⟨rfl, rfl, selected, rfl⟩
    | updateMiningSubaddress address =>
      refine ⟨fun _ => trivial, fun _ => inv.same ?_⟩
      simp only [next, MinerViewModel.next, updateMiningSubaddress]
      exact same_saveSubaddress _ (fun _ => rfl) ⟨rfl, rfl, selected, rfl⟩
    | startMining => exact ⟨fun _ => trivial, fun _ => inv.same (same_startMining selected)⟩
    | stopMining => exact ⟨fun _ => trivial, fun _ => inv.same ⟨rfl, rfl, selected, rfl⟩⟩
  | loadSavedConfig => exact ⟨fun _ => trivial, fun _ => inv_reload inv⟩
  | importConfigFromJson json => exact import_iff inv enabled
  | updatePoolHost host => exact ⟨fun _ => trivial, fun _ => inv.same ⟨rfl, rfl, selected, rfl⟩⟩
  | updatePoolPort port => exact ⟨fun _ => trivial, fun _ => inv.same ⟨rfl, rfl, selected, rfl⟩⟩
  | updateWallet wallet => exact ⟨fun _ => trivial, fun _ => inv.same ⟨rfl, rfl, selected, rfl⟩⟩
  | updateWorker worker => exact ⟨fun _ => trivial, fun _ => inv.same ⟨rfl, rfl, selected, rfl⟩⟩
  | updateThreads threads cpuCount =>
    refine ⟨fun _ => trivial, fun _ => inv.same ?_⟩
    simp only [next, updateThreads]
    split_ifs
    · exact ⟨rfl, rfl, selected, rfl⟩
    · exact ⟨rfl, rfl, selected, rfl⟩
    · exact ⟨rfl, rfl, selected, rfl⟩

/-- In every run from a stored map of rigs the names are listed as they should in every
state exactly when "default" is not stored as a rig and every step uses fresh names. -/
theorem always_rigsListed_iff {preferences : Option JsonText}
    (distinct : IsMap (getConfig gson preferences).subaddress.additionalRigs)
    {h : List (ViewModel JsonText × Edit JsonText)} {vm : ViewModel JsonText}
    (run : Run (machine gson) (· = created gson preferences) h vm) :
    Always (RigsListed gson) h vm ↔
      "default" ∉ rigNames (getConfig gson preferences).subaddress.additionalRigs ∧
        ∀ m ∈ h, NamesFresh gson m.1 m.2 := by
  have loads : RigsListed gson (created gson preferences) ↔
      "default" ∉ rigNames (getConfig gson preferences).subaddress.additionalRigs :=
    listed_load_iff rfl distinct
  have loadsInv : Inv gson (created gson preferences) ↔
      "default" ∉ rigNames (getConfig gson preferences).subaddress.additionalRigs :=
    inv_load_iff rfl distinct
  have steps (initial : Inv gson (created gson preferences)) :
      Always (RigsListed gson) h vm ↔ ∀ m ∈ h, NamesFresh gson m.1 m.2 := by
    apply run.always_iff (I := Inv gson)
    · exact fun vm start => start ▸ initial
    · exact fun vm inv => inv.listed
    · exact fun vm e inv enabled fresh => (next_iff inv enabled).2 fresh
    · exact fun vm e inv enabled listed => (next_iff inv enabled).1 listed
  constructor
  · intro always
    have noDefault := loads.mp (always.at_start run)
    exact ⟨noDefault, (steps (loadsInv.mpr noDefault)).mp always⟩
  · rintro ⟨noDefault, fresh⟩
    exact (steps (loadsInv.mpr noDefault)).mpr fresh

/-- A rig is added, its subaddress is changed by adding it again, and it is removed. -/
def addedTwice : List (Edit MinerConfig) :=
  [.call (.addRig "attic" "8a"), .call (.addRig "attic" "8b"), .call (.removeRig "attic")]

def addedTwiceRun : List (ViewModel MinerConfig × Edit MinerConfig) × ViewModel MinerConfig :=
  replay (machine identityGson) addedTwice ([], loaded)

theorem addedTwice_run :
    Run (machine identityGson) (· = created identityGson (some sampleConfig)) addedTwiceRun.1
      addedTwiceRun.2 := by
  have started : Run (machine identityGson) (· = created identityGson (some sampleConfig)) []
      loaded := .init rfl
  exact replay_run started _ ⟨trivial, trivial, trivial, trivial⟩

theorem always_rigsListed_iff_addedTwice :
    Always (RigsListed identityGson) addedTwiceRun.1 addedTwiceRun.2 ↔
      "default" ∉ rigNames
          (getConfig identityGson (some sampleConfig)).subaddress.additionalRigs ∧
        ∀ m ∈ addedTwiceRun.1, NamesFresh identityGson m.1 m.2 :=
  always_rigsListed_iff (by decide) addedTwice_run

/-- The name outlives the rig in the list. -/
theorem always_rigsListed_fails_addedTwice :
    Run (machine identityGson) (· = created identityGson (some sampleConfig)) addedTwiceRun.1
        addedTwiceRun.2 ∧
      "attic" ∈ addedTwiceRun.2.ui.availableRigs ∧
      "attic" ∉ rigNames addedTwiceRun.2.ui.additionalRigs ∧
      ¬Always (RigsListed identityGson) addedTwiceRun.1 addedTwiceRun.2 := by
  have left : "attic" ∈ addedTwiceRun.2.ui.availableRigs := by decide
  have gone : "attic" ∉ rigNames addedTwiceRun.2.ui.additionalRigs := by decide
  refine ⟨addedTwice_run, left, gone, fun always => ?_⟩
  rcases (always.1.exactly "attic").mp left with isDefault | mem
  · exact absurd isDefault (by decide)
  · exact gone mem

end RigList
