import Arboretum.Proofs.Store.Building
import Arboretum.Proofs.Tree.Rising

/-!
# Trees that grew at any paths

A tree in memory that started empty and was changed at whatever paths (`Storage.Grown`) need not be
orderly: a name may end in blanks, since cleaning a path trims its text and not its fields.  But
every name is **plain** (`Forest.Plain`): it is not empty, no `.` and no `..`, and has no slash.
Each operation puts a name under a directory that it took from a cleaned path, and plain names are
all that cleaning leaves.  So whatever putting plain names and erasing names keep
(`MemoryTree.Kept`), every tree that grew has (`Grown.keeps`): its names are plain (`Grown.plain`),
and they rise (`Grown.rising`).
-/

namespace Arboretum

/-! ## 1. Plain forests -/

namespace Forest

variable {α : Type}

/-- **A forest of plain names**, in every directory. -/
inductive Plain : Forest α → Prop
  | empty : Plain .empty
  | leaf {name : String} {content : α} {rest : Forest α} (hn : Path.IsPlain name.toList)
    (hr : Plain rest) : Plain (.leaf name content rest)
  | folder {name : String} {inside rest : Forest α} (hn : Path.IsPlain name.toList)
    (hi : Plain inside) (hr : Plain rest) : Plain (.folder name inside rest)

end Forest

/-- The inside of a node is a forest of plain names. -/
def Node.Plain {α : Type} : Node α → Prop
  | .leaf _ => True
  | .folder inside => inside.Plain

namespace Forest

variable {α : Type} {f inside : Forest α} {name : String} {node : Node α}

theorem plain_before {rest : Forest α} :
    (node.before name rest).Plain ↔ Path.IsPlain name.toList ∧ node.Plain ∧ rest.Plain := by
  cases node with
  | leaf content =>
    exact ⟨fun | .leaf hn hr => ⟨hn, trivial, hr⟩, fun ⟨hn, _, hr⟩ => .leaf hn hr⟩
  | folder inside =>
    exact ⟨fun | .folder hn hi hr => ⟨hn, hi, hr⟩, fun ⟨hn, hi, hr⟩ => .folder hn hi hr⟩

/-- What a plain forest lists has a plain name and a plain inside. -/
theorem plain_of_mem_toList (h : f.Plain) {x : String × Node α} (hx : x ∈ f.toList) :
    Path.IsPlain x.1.toList ∧ x.2.Plain := by
  induction f using induction_before with
  | empty => exact absurd hx List.not_mem_nil
  | before first y rest ih =>
    obtain ⟨hname, hy, hrest⟩ := plain_before.1 h
    rw [toList_before] at hx
    rcases List.mem_cons.1 hx with rfl | hx
    · exact ⟨hname, hy⟩
    · exact ih hrest hx

theorem plain_put (h : f.Plain) (hn : Path.IsPlain name.toList) (hx : node.Plain) :
    (f.put name node).Plain := by
  induction f using induction_before with
  | empty => exact plain_before.2 ⟨hn, hx, .empty⟩
  | before first y rest ih =>
    obtain ⟨hfirst, hy, hrest⟩ := plain_before.1 h
    rw [put_before]
    split
    · exact plain_before.2 ⟨hn, hx, h⟩
    · split
      · exact plain_before.2 ⟨hn, hx, hrest⟩
      · exact plain_before.2 ⟨hfirst, hy, ih hrest⟩

theorem plain_erase (h : f.Plain) (name : String) : (f.erase name).Plain := by
  induction f using induction_before with
  | empty => exact h
  | before first y rest ih =>
    obtain ⟨hfirst, hy, hrest⟩ := plain_before.1 h
    rw [erase_before]
    split
    · exact hrest
    · exact plain_before.2 ⟨hfirst, hy, ih hrest⟩

/-- Every directory of a plain forest is plain. -/
theorem plain_of_at? (h : f.Plain) {names : List String}
    (ha : f.at? names = some (.folder inside)) : inside.Plain := by
  induction names generalizing f with
  | nil =>
    cases ha
    exact h
  | cons name names ih =>
    obtain ⟨g, hg, ha⟩ := at?_cons_eq_folder ha
    exact ih (plain_of_mem_toList h (mem_toList_of_find? hg)).2 ha

/-- What stands in a plain forest stands at plain names. -/
theorem arePlain_of_at? (h : f.Plain) {names : List String} (hs : (f.at? names).isSome = true) :
    Path.ArePlain names := by
  induction names generalizing f with
  | nil => exact fun _ hn => absurd hn List.not_mem_nil
  | cons name names ih =>
    rw [at?_cons] at hs
    cases hf : f.find? name with
    | none => rw [hf] at hs; cases hs
    | some node =>
      obtain ⟨hname, hnode⟩ := plain_of_mem_toList h (mem_toList_of_find? hf)
      rw [hf] at hs
      have hrest : Path.ArePlain names := by
        cases node with
        | folder inside => exact ih hnode hs
        | leaf data =>
          cases names with
          | nil => exact fun _ hn => absurd hn List.not_mem_nil
          | cons m ms => cases hs
      exact List.forall_mem_cons.2 ⟨hname, hrest⟩

/-- **A change of one directory keeps a forest plain** when it keeps that directory so. -/
theorem plain_change (h : f.Plain) {how : Forest α → Forest α} {names : List String}
    (ha : f.at? names = some (.folder inside)) (hi : (how inside).Plain) :
    (f.change how names).Plain := by
  induction names generalizing f with
  | nil =>
    cases ha
    exact hi
  | cons name names ih =>
    obtain ⟨g, hg, ha⟩ := at?_cons_eq_folder ha
    obtain ⟨hn, hgp⟩ := plain_of_mem_toList h (mem_toList_of_find? hg)
    rw [change_cons hg]
    exact plain_put h hn (ih hgp ha)

end Forest

/-! ## 2. Operations -/

namespace MemoryTree

/-- **What every change of a tree keeps**: the empty tree has it, and a tree has it still when a
plain name is put into one of its directories, for a file or an empty directory, or a name erased
there. -/
structure Kept (P : MemoryTree → Prop) : Prop where
  empty : P .empty
  put : ∀ {t inside : MemoryTree} {above : List String} {name : String} {node : Node ByteArray},
    P t → t.at? above = some (.folder inside) → Path.IsPlain name.toList →
      (node.isFolder = true → node = .folder .empty) → P (t.change (Forest.put name node) above)
  erase : ∀ {t inside : MemoryTree} {above : List String} (name : String),
    P t → t.at? above = some (.folder inside) → P (t.change (Forest.erase name) above)

/-- Plain names are kept, -/
theorem kept_plain : Kept Forest.Plain where
  empty := .empty
  put := by
    intro t inside above name node ht ha hn hempty
    have hnode : node.Plain := by
      cases node with
      | leaf data => trivial
      | folder deeper =>
        obtain rfl := Node.folder.inj (hempty rfl)
        exact Forest.Plain.empty
    exact Forest.plain_change ht ha (Forest.plain_put (Forest.plain_of_at? ht ha) hn hnode)
  erase := fun name ht ha =>
    Forest.plain_change ht ha (Forest.plain_erase (Forest.plain_of_at? ht ha) name)

/-- and so are names that rise. -/
theorem kept_rising : Kept Forest.Rising where
  empty := .empty
  put := by
    intro t inside above name node ht ha _ hempty
    have hnode : node.Rising := by
      cases node with
      | leaf data => trivial
      | folder deeper =>
        obtain rfl := Node.folder.inj (hempty rfl)
        exact Forest.Rising.empty
    exact Forest.rising_change ht ha (Forest.rising_put (ht.of_at? ha) hnode)
  erase := fun name ht ha => Forest.rising_change ht ha (Forest.rising_erase (ht.of_at? ha) name)

namespace Kept

variable {P : MemoryTree → Prop} (hP : Kept P) {t t' : MemoryTree} {path : String}
include hP

/-- Putting a name under the holder of a path, as the path has it. -/
theorem put_holder (ht : P t) {above : List String} {inside : Forest ByteArray} {n : String}
    (hh : t.holder path = .ok (above, inside, n)) {node : Node ByteArray}
    (hempty : node.isFolder = true → node = .folder .empty) :
    P (t.change (Forest.put n node) above) := by
  obtain ⟨outer, hns, -, hat⟩ := of_holder hh
  have hn : n ∈ Path.names path := hns ▸ List.mem_append_right outer List.mem_cons_self
  exact hP.put ht hat (Path.isPlain_of_mem_names hn) hempty

theorem write (ht : P t) {data : ByteArray} (h : t.write path data = .ok t') : P t' := by
  unfold MemoryTree.write at h
  cases hh : t.holder path with
  | error f =>
    rw [hh] at h
    cases h
  | ok held =>
    obtain ⟨above, inside, n⟩ := held
    rw [hh] at h
    dsimp only at h
    have hput : P (t.change (Forest.put n (.leaf data)) above) := hP.put_holder ht hh nofun
    split at h
    · cases h
    · exact Except.ok.inj h ▸ hput

theorem makeOne (ht : P t) (h : t.makeOne path = .ok t') : P t' := by
  unfold MemoryTree.makeOne at h
  cases hh : t.holder path with
  | error f =>
    rw [hh] at h
    cases h
  | ok held =>
    obtain ⟨above, inside, n⟩ := held
    rw [hh] at h
    dsimp only at h
    split at h
    · cases h
    · exact Except.ok.inj h ▸ hP.put_holder ht hh fun _ => rfl

theorem remove (ht : P t) (h : t.remove path = .ok t') : P t' := by
  unfold MemoryTree.remove at h
  cases hh : t.holder path with
  | error f =>
    rw [hh] at h
    cases h
  | ok held =>
    obtain ⟨above, inside, n⟩ := held
    rw [hh] at h
    dsimp only at h
    obtain ⟨-, -, -, hat⟩ := of_holder hh
    have herased : P (t.change (Forest.erase n) above) := hP.erase n ht hat
    split at h
    · cases h
    · cases h
    · cases h
    · exact Except.ok.inj h ▸ herased

omit hP in
/-- A change that happens whole or not at all keeps what its success keeps. -/
theorem whole (ht : P t) {result : Except Fault MemoryTree} (h : ∀ t', result = .ok t' → P t') :
    P (Changed.whole t result).2 := by
  cases result with
  | ok t' => exact h t' rfl
  | error f => exact ht

theorem makeLevel (ht : P t) (path : String) : P (makeLevel path t).2 := by
  unfold MemoryTree.makeLevel
  split
  · exact ht
  · exact whole ht fun t' => hP.makeOne ht

theorem makeDir (ht : P t) (path : String) (parents : Bool) : P (t.makeDir path parents).2 := by
  unfold MemoryTree.makeDir
  dsimp only
  generalize Path.clean path = path
  cases parents with
  | true =>
    generalize hl : Changed.inTurn MemoryTree.makeLevel (t.missingLevels path.length path) t = last
    refine Changed.inTurn_keeps (fun level _ t ht next hnext => ?_) ht hl
    rw [← hnext]
    exact hP.makeLevel ht level
  | false => exact whole ht fun t' => hP.makeOne ht

theorem addOne (ht : P t) (item : String × Option ByteArray) : P (addOne item t).2 := by
  obtain ⟨path, _ | data⟩ := item
  · unfold MemoryTree.addOne
    exact hP.makeDir ht path true
  · have hmade := hP.makeDir ht (Path.parent path) true
    unfold MemoryTree.addOne
    dsimp only
    rcases hm : t.makeDir (Path.parent path) true with ⟨_ | _, made⟩
    · rw [hm] at hmade
      exact hmade
    · rw [hm] at hmade
      exact whole hmade fun t' => hP.write hmade

theorem add (ht : P t) (items : List (String × Option ByteArray)) : P (t.add items).2 := by
  generalize ha : t.add items = added
  refine Changed.inTurn_keeps (fun item _ t ht next hnext => ?_) ht ha
  rw [← hnext]
  exact hP.addOne ht item

end Kept

end MemoryTree

/-! ## 3. Stores -/

namespace Storage

variable {st : Storage} {s : Store} {P : MemoryTree → Prop}

/-- **A tree grew** in a store: it started empty, and since then anything was done to it and to all
other stores, at any paths. -/
inductive Grown (s : Store) : Storage → Prop
  | bare {st : Storage} (h : st.IsBare s) : Grown s st
  | ask {st : Storage} (h : Grown s st) (t : Store) (c : Call) : Grown s (st.ask t c).2
  | add {st : Storage} (h : Grown s st) (id : Nat) (items : List (String × Option ByteArray)) :
    Grown s (st.setMemory id ((st.memory id).add items).2)

/-- What was built at tidy paths grew. -/
theorem Built.grown (h : Built s st) : Grown s st := by
  induction h with
  | bare h => exact .bare h
  | ask _ t c _ ih => exact ih.ask t c
  | add _ id items _ ih => exact ih.add id items

/-- A call keeps what every change of a tree keeps. -/
theorem kept_askMemory (hP : MemoryTree.Kept P) {t : Store} (h : P (st.memory t.id)) (c : Call) :
    P ((st.askMemory t c).2.memory t.id) := by
  cases c with
  | list path hints => exact h
  | stat path => exact h
  | join parts => exact h
  | read path => exact h
  | write path data =>
    simp only [askMemory, askMemory.settle, memory_setMemory]
    exact MemoryTree.Kept.whole h fun t' => hP.write h
  | makeDir path parents =>
    simp only [askMemory, askMemory.settle, memory_setMemory]
    exact hP.makeDir h path parents
  | remove path =>
    simp only [askMemory, askMemory.settle, memory_setMemory]
    exact MemoryTree.Kept.whole h fun t' => hP.remove h

/-- **A tree that grew in memory has what every change keeps.**  By induction on what was done. -/
theorem Grown.keeps (h : Grown s st) (hk : s.kind = .memory) (hP : MemoryTree.Kept P) :
    P (st.memory s.id) := by
  induction h with
  | bare h =>
    unfold IsBare at h
    rw [hk] at h
    rw [h]
    exact hP.empty
  | @ask st _ t c ih =>
    by_cases hown : t.kind = .memory ∧ t.id = s.id
    · obtain ⟨hkt, hid⟩ := hown
      rw [ask_memory hkt, ← hid]
      exact kept_askMemory hP (hid ▸ ih) c
    · rw [st.memory_ask (fun hkt hid => hown ⟨hkt, hid⟩) c]
      exact ih
  | @add st _ id items ih =>
    by_cases hid : id = s.id
    · subst hid
      rw [memory_setMemory]
      exact hP.add ih items
    · rw [memory_setMemory_of_ne hid]
      exact ih

/-- **A tree that grew in memory is plain**, -/
theorem Grown.plain (h : Grown s st) (hk : s.kind = .memory) : (st.memory s.id).Plain :=
  h.keeps hk MemoryTree.kept_plain

/-- and its names rise. -/
theorem Grown.rising (h : Grown s st) (hk : s.kind = .memory) : (st.memory s.id).Rising :=
  h.keeps hk MemoryTree.kept_rising

/-- **A tree that grew in memory without names that end in a blank** is held by its store. -/
theorem Grown.holds (h : Grown s st) (hk : s.kind = .memory)
    (hb : ∀ ns, ((st.memory s.id).at? ns).isSome = true →
      ∀ n ∈ ns, Text.endsBlank n.toList = false) :
    st.Holds s (st.memory s.id) := by
  refine (holds_memory hk).2 ⟨rfl, (h.rising hk).orderly fun ns hs n hn => ⟨?_, hb ns hs n hn⟩⟩
  exact Forest.arePlain_of_at? (h.plain hk) hs n hn

end Storage

end Arboretum
