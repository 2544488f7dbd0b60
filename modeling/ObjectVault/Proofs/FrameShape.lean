import ObjectVault.Proofs.CompactText
import ObjectVault.Proofs.TableReading
import ObjectVault.Shell.Display
import ObjectVault.Value.Tagged

namespace ObjectVault

namespace Grid
variable {α β : Type} {g : Grid α} {h : Grid β}

/-- The same columns, with as many labels and as many cells in each row. -/
structure SameShape (g : Grid α) (h : Grid β) : Prop where
  columns : g.columns = h.columns
  labels : g.index.length = h.index.length
  cells : g.rows.map List.length = h.rows.map List.length

theorem SameShape.rectangular_iff (same : g.SameShape h) : g.Rectangular ↔ h.Rectangular := by
  have rows : g.rows.length = h.rows.length := by simpa using congrArg List.length same.cells
  have widths : (∀ row ∈ g.rows, row.length = g.columns.length) ↔
      ∀ row ∈ h.rows, row.length = h.columns.length := by
    rw [← List.forall_mem_map (P := (· = g.columns.length)), same.cells, same.columns,
      List.forall_mem_map]
  rw [Rectangular, Rectangular, widths, same.labels, rows]

/-- The labels and all cells. -/
def items (g : Grid α) : List α :=
  g.index ++ g.rows.flatten

/-- Each label and each cell of one frame has its counterpart in the other. -/
structure Alike (R : α → β → Prop) (g : Grid α) (h : Grid β) : Prop where
  columns : g.columns = h.columns
  index : List.Forall₂ R g.index h.index
  rows : List.Forall₂ (List.Forall₂ R) g.rows h.rows

theorem Alike.sameShape {R : α → β → Prop} (alike : Alike R g h) : g.SameShape h := by
  refine ⟨alike.columns, alike.index.length_eq, ?_⟩
  have widths : List.Forall₂ (fun row row' => row.length = row'.length) g.rows h.rows :=
    alike.rows.imp fun _ _ row => row.length_eq
  rwa [← List.forall₂_eq_eq_eq, List.forall₂_map_left_iff, List.forall₂_map_right_iff]

/-- Where each of the lists reaches, none is passed over. -/
theorem mapM_getElem? {lists : List (List α)} {i : Nat} (reach : ∀ xs ∈ lists, i < xs.length) :
    lists.mapM (·[i]?) = some (lists.filterMap (·[i]?)) := by
  induction lists with
  | nil => rfl
  | cons xs lists ih =>
    obtain ⟨first, others⟩ := List.forall_mem_cons.mp reach
    rw [List.mapM_cons, ih others, List.filterMap_cons, List.getElem?_eq_getElem first]
    rfl

theorem Alike.items {R : α → β → Prop} (alike : Alike R g h) :
    List.Forall₂ R g.items h.items :=
  List.rel_append alike.index (List.rel_flatten alike.rows)

end Grid

/-- The inner one is the whole, or it is in a part of the whole. -/
inductive Inside {α : Type} (parts : α → List α) (inner : α) : α → Prop
  | self : Inside parts inner inner
  | part {whole a : α} (mem : a ∈ parts whole) (inside : Inside parts inner a) :
    Inside parts inner whole

section Counterparts
variable {α β : Type} {R : α → β → Prop} {xs : List α} {ys : List β} {a : α} {b : β}

theorem exists_mem_left (each : List.Forall₂ R xs ys) (mem : b ∈ ys) : ∃ a ∈ xs, R a b := by
  induction each with
  | nil => cases mem
  | @cons a _ _ _ own _ ih =>
    rcases List.mem_cons.mp mem with rfl | mem
    · exact ⟨a, .head _, own⟩
    · obtain ⟨a, mem, own⟩ := ih mem
      exact ⟨a, .tail _ mem, own⟩

/-- Where parts correspond, all that is inside the one has its counterpart inside the other. -/
theorem Inside.counterpart {parts : α → List α} {parts' : β → List β}
    (step : ∀ a b, R a b → List.Forall₂ R (parts a) (parts' b)) (related : R a b) {inner : β}
    (inside : Inside parts' inner b) : ∃ a', Inside parts a' a ∧ R a' inner := by
  induction inside generalizing a with
  | self => exact ⟨a, .self, related⟩
  | part mem _ ih =>
    obtain ⟨a', own, related⟩ := exists_mem_left (step _ _ related) mem
    obtain ⟨a'', inside, related⟩ := ih related
    exact ⟨a'', .part own inside, related⟩

/-- Entries of the same names, whose values correspond. -/
def SameEntry (R : α → β → Prop) (e : String × α) (d : String × β) : Prop :=
  e.1 = d.1 ∧ R e.2 d.2

theorem insertEntry_sameEntry {es : List (String × α)} {ds : List (String × β)}
    (each : List.Forall₂ (SameEntry R) es ds) (own : R a b) (name : String) :
    List.Forall₂ (SameEntry R) (Table.insertEntry name a es) (Table.insertEntry name b ds) := by
  induction each with
  | nil => exact .cons ⟨rfl, own⟩ .nil
  | @cons e d es ds first others ih =>
    obtain ⟨other, a'⟩ := e
    obtain ⟨other', b'⟩ := d
    obtain ⟨rfl, related⟩ := first
    simp only [Table.insertEntry]
    split_ifs
    · exact .cons ⟨rfl, own⟩ (.cons ⟨rfl, related⟩ others)
    · exact .cons ⟨rfl, own⟩ others
    · exact .cons ⟨rfl, related⟩ ih

theorem sortFields_sameEntry {es : List (String × α)} {ds : List (String × β)}
    (each : List.Forall₂ (SameEntry R) es ds) :
    List.Forall₂ (SameEntry R) (Value.sortFields es) (Value.sortFields ds) := by
  have general : ∀ (s : Table α) (t : Table β), List.Forall₂ (SameEntry R) s.entries t.entries →
      List.Forall₂ (SameEntry R)
        (es.foldl (fun t e => t.insert e.1 e.2) s).entries
        (ds.foldl (fun t d => t.insert d.1 d.2) t).entries := by
    induction each with
    | nil => exact fun _ _ same => same
    | @cons e d _ _ own _ ih =>
      intro s t same
      obtain ⟨name, related⟩ := own
      have inserted := insertEntry_sameEntry same related e.1
      refine ih (s.insert e.1 e.2) (t.insert d.1 d.2) ?_
      rwa [name] at inserted ⊢
  exact general ∅ ∅ .nil

theorem values_sameEntry {es : List (String × α)} {ds : List (String × β)}
    (each : List.Forall₂ (SameEntry R) es ds) :
    List.Forall₂ R (es.map Prod.snd) (ds.map Prod.snd) := by
  rw [List.forall₂_map_left_iff, List.forall₂_map_right_iff]
  exact each.imp fun _ _ own => own.2

end Counterparts

/-- The values that are directly in a value. -/
def Value.parts : Value → List Value
  | list items => items
  | object fields => fields.map Prod.snd
  | frame grid => grid.items
  | _ => []

namespace Json

/-- The columns that a document gives a frame, with the labels and cells as they are written. -/
def grid? (content : Json) : Option (Grid Json) :=
  match content.record ["columns", "index", "rows"] with
  | some [some columns, some index, some rows] => do
    let columns ← columns.array?
    let index ← index.array?
    let rows ← rows.array?
    return ⟨← columns.mapM string?, index, ← rows.mapM array?⟩
  | _ => none

/-- The frame that a tagged document is written for. -/
def frame? : Json → Option (Grid Json)
  | .object [(name, content)] => if name = "Frame" then content.grid? else none
  | _ => none

/-- The values of the fields of an object. Of two fields of one name the later one counts. -/
def fieldValues : Json → List Json
  | .object fields => (Value.sortFields fields).map Prod.snd
  | _ => []

/-- The tagged documents that are directly in a tagged document. -/
def parts : Json → List Json
  | .object [(name, content)] =>
    if name = "List" then content.array?.getD []
    else if name = "Object" then content.fieldValues
    else if name = "Frame" then (content.grid?.map Grid.items).getD []
    else []
  | _ => []

end Json

namespace Value
variable {j : Json} {v : Value} {fuel room : Nat}

theorem forall₂_of_mapM {α β : Type} {f : α → Option β} {items : List α} {vs : List β}
    (h : items.mapM f = some vs) : List.Forall₂ (fun a b => f a = some b) items vs := by
  induction items generalizing vs with
  | nil =>
    cases h
    exact .nil
  | cons a items ih =>
    rw [List.mapM_cons] at h
    obtain ⟨b, first, h⟩ := Option.bind_eq_some_iff.mp h
    obtain ⟨bs, others, h⟩ := Option.bind_eq_some_iff.mp h
    cases h
    exact .cons first (ih others)

theorem arrayWithin_eq_some {α : Type} {read : Nat → Json → Option α} {vs : List α}
    (h : arrayWithin room read j = some vs) :
    ∃ items, j.array? = some items ∧ items.mapM (read (room - 1)) = some vs := by
  rw [arrayWithin] at h
  split at h
  · cases h
  · exact Option.bind_eq_some_iff.mp h

theorem fieldsWithin_eq_some {α : Type} {read : Nat → Json → Option α} {vs : List (String × α)}
    (h : fieldsWithin room read j = some vs) :
    ∃ fields, j = .object fields ∧
      List.Forall₂ (SameEntry fun j v => read (room - 1) j = some v) fields vs := by
  unfold fieldsWithin at h
  split at h
  · next fields =>
    split at h
    · cases h
    · refine ⟨fields, rfl, (forall₂_of_mapM h).imp fun f w own => ?_⟩
      obtain ⟨v, read, rfl⟩ := Option.map_eq_some_iff.mp own
      exact ⟨rfl, read⟩
  · cases h

/-- Rows are arrays, with what is read from each of their items. -/
theorem rows_of_mapM {α : Type} {read : Nat → Json → Option α} {docs : List Json}
    {rows : List (List α)} (h : docs.mapM (arrayWithin room read) = some rows) :
    ∃ cells, docs.mapM Json.array? = some cells ∧
      List.Forall₂ (List.Forall₂ fun j v => read (room - 1) j = some v) cells rows := by
  induction docs generalizing rows with
  | nil =>
    cases h
    exact ⟨[], rfl, .nil⟩
  | cons doc docs ih =>
    rw [List.mapM_cons] at h
    obtain ⟨row, first, h⟩ := Option.bind_eq_some_iff.mp h
    obtain ⟨rest, others, h⟩ := Option.bind_eq_some_iff.mp h
    cases h
    obtain ⟨items, array, each⟩ := arrayWithin_eq_some first
    obtain ⟨cells, arrays, all⟩ := ih others
    refine ⟨items :: cells, ?_, .cons (forall₂_of_mapM each) all⟩
    rw [List.mapM_cons, array, arrays]
    rfl

/-- The document is read as the value, somewhere inside a document. -/
def ReadAs (j : Json) (v : Value) : Prop :=
  ∃ fuel room, ofTaggedWithin fuel room j = some v

/-- What a document and the value that is read from it have in common: what is in them, and the
frame that they are. -/
structure Agree (j : Json) (v : Value) : Prop where
  parts : List.Forall₂ ReadAs j.parts v.parts
  frame : ∀ g, j.frame? = some g → ∃ frame, v = .frame frame ∧ g.Alike ReadAs frame
  written : ∀ frame, v = .frame frame → ∃ g, j.frame? = some g

theorem Agree.of_leaf {name : String} {content : Json} (leaf : name ∉ ["List", "Object", "Frame"])
    (empty : v.parts = []) (frameless : ∀ frame, v ≠ .frame frame) :
    Agree (.object [(name, content)]) v := by
  simp only [List.mem_cons, not_or, List.not_mem_nil, not_false_eq_true, and_true] at leaf
  obtain ⟨list, object, frame⟩ := leaf
  refine ⟨?_, ?_, fun frame same => absurd same (frameless frame)⟩
  · rw [empty, Json.parts, if_neg list, if_neg object, if_neg frame]
    exact .nil
  · intro g own
    rw [Json.frame?, if_neg frame] at own
    cases own

theorem Agree.of_list {content : Json} {vs : List Value}
    (read : arrayWithin room (ofTaggedWithin fuel) content = some vs) :
    Agree (.object [("List", content)]) (.list vs) := by
  obtain ⟨items, array, each⟩ := arrayWithin_eq_some read
  refine ⟨?_, by simp [Json.frame?], nofun⟩
  simp only [Json.parts, if_pos, array, Option.getD_some]
  exact (forall₂_of_mapM each).imp fun _ _ read => ⟨_, _, read⟩

theorem Agree.of_object {content : Json} {vs : List (String × Value)}
    (read : fieldsWithin room (ofTaggedWithin fuel) content = some vs) :
    Agree (.object [("Object", content)]) (.object (sortFields vs)) := by
  obtain ⟨fields, rfl, each⟩ := fieldsWithin_eq_some read
  have same : List.Forall₂ (SameEntry ReadAs) fields vs :=
    each.imp fun _ _ own => ⟨own.1, _, _, own.2⟩
  exact ⟨values_sameEntry (sortFields_sameEntry same), by simp [Json.frame?], nofun⟩

theorem Agree.of_frame {content : Json} {g : Grid Json} {frame : Frame}
    (written : content.grid? = some g) (alike : g.Alike ReadAs frame) :
    Agree (.object [("Frame", content)]) (.frame frame) := by
  have own : (Json.object [("Frame", content)]).frame? = some g := by
    rw [Json.frame?, if_pos rfl, written]
  have parts : (Json.object [("Frame", content)]).parts = g.items := by
    simp [Json.parts, written]
  refine ⟨?_, ?_, fun _ _ => ⟨g, own⟩⟩
  · rw [parts]
    exact alike.items
  · intro g' own'
    cases own.symm.trans own'
    exact ⟨frame, rfl, alike⟩

/-- The frame that is read from a document is the one that it writes, label by label and cell by
cell. -/
theorem alike_of_record {content columns index rows : Json} {names : List String}
    {labels : List Value} {cells : List (List Value)}
    (parts : content.record ["columns", "index", "rows"] =
      some [some columns, some index, some rows])
    (columnsRead : arrayWithin room (fun _ => Json.string?) columns = some names)
    (indexRead : arrayWithin room (ofTaggedWithin fuel) index = some labels)
    (rowsRead : arrayWithin room (fun r => arrayWithin r (ofTaggedWithin fuel)) rows = some cells) :
    ∃ g, content.grid? = some g ∧ g.Alike ReadAs ⟨names, labels, cells⟩ := by
  obtain ⟨columnDocs, columnsArray, strings⟩ := arrayWithin_eq_some columnsRead
  obtain ⟨labelDocs, labelsArray, eachLabel⟩ := arrayWithin_eq_some indexRead
  obtain ⟨rowDocs, rowsArray, eachRow⟩ := arrayWithin_eq_some rowsRead
  obtain ⟨cellDocs, arrays, each⟩ := rows_of_mapM eachRow
  refine ⟨⟨names, labelDocs, cellDocs⟩, ?_, rfl, ?_, ?_⟩
  · rw [Json.grid?, parts]
    simp only [columnsArray, labelsArray, rowsArray, Option.bind_eq_bind, Option.bind_some, strings,
      arrays]
    rfl
  · exact (forall₂_of_mapM eachLabel).imp fun _ _ read => ⟨_, _, read⟩
  · exact each.imp fun _ _ row => row.imp fun _ _ read => ⟨_, _, read⟩

/-- What is read behind a tag, by the kind of value. -/
inductive Tagged (fuel room : Nat) : String → Json → Value → Prop
  | leaf {name : String} {content : Json} {v : Value} (tag : name ∉ ["List", "Object", "Frame"])
    (empty : v.parts = []) (frameless : ∀ frame, v ≠ .frame frame) : Tagged fuel room name content v
  | list {content : Json} {vs : List Value}
    (read : arrayWithin (room - 1) (ofTaggedWithin fuel) content = some vs) :
    Tagged fuel room "List" content (.list vs)
  | object {content : Json} {vs : List (String × Value)}
    (read : fieldsWithin (room - 1) (ofTaggedWithin fuel) content = some vs) :
    Tagged fuel room "Object" content (.object (sortFields vs))
  | frame {content : Json} {g : Grid Json} {frame : Frame} (written : content.grid? = some g)
    (alike : g.Alike ReadAs frame) : Tagged fuel room "Frame" content (.frame frame)

theorem tagged_of_ofTaggedWithin {name : String} {content : Json}
    (h : ofTaggedWithin (fuel + 1) room (.object [(name, content)]) = some v) :
    Tagged fuel room name content v := by
  -- The tags in their order; only lists, objects and frames have parts.
  rw [ofTaggedWithin.eq_def] at h
  dsimp only at h
  obtain ⟨-, h⟩ := Option.ite_none_left_eq_some.mp h
  by_cases null : name = "Null"
  · rw [if_pos null] at h
    split at h
    · cases h
      exact .leaf (by simp [null]) rfl nofun
    · cases h
  by_cases bool : name = "Bool"
  · rw [if_neg null, if_pos bool] at h
    obtain ⟨b, -, rfl⟩ := Option.map_eq_some_iff.mp h
    exact .leaf (by simp [bool]) rfl nofun
  by_cases int : name = "Int"
  · rw [if_neg null, if_neg bool, if_pos int] at h
    split at h
    · obtain ⟨-, h⟩ := Option.ite_none_right_eq_some.mp h
      cases h
      exact .leaf (by simp [int]) rfl nofun
    · cases h
  rw [if_neg null, if_neg bool, if_neg int] at h
  by_cases float : name = "Float"
  · rw [if_pos float] at h
    obtain ⟨x, -, rfl⟩ := Option.map_eq_some_iff.mp h
    exact .leaf (by simp [float]) rfl nofun
  by_cases string : name = "String"
  · rw [if_neg float, if_pos string] at h
    obtain ⟨s, -, rfl⟩ := Option.map_eq_some_iff.mp h
    exact .leaf (by simp [string]) rfl nofun
  rw [if_neg float, if_neg string] at h
  by_cases list : name = "List"
  · rw [if_pos list] at h
    obtain ⟨vs, within, rfl⟩ := Option.map_eq_some_iff.mp h
    subst list
    exact .list within
  by_cases object : name = "Object"
  · rw [if_neg list, if_pos object] at h
    obtain ⟨vs, within, rfl⟩ := Option.map_eq_some_iff.mp h
    subst object
    exact .object within
  rw [if_neg list, if_neg object] at h
  obtain ⟨rfl, h⟩ := Option.ite_none_right_eq_some.mp h
  obtain ⟨-, h⟩ := Option.ite_none_left_eq_some.mp h
  split at h
  · next columns index rows parts =>
    obtain ⟨names, columnsRead, h⟩ := Option.bind_eq_some_iff.mp h
    obtain ⟨labels, indexRead, h⟩ := Option.bind_eq_some_iff.mp h
    obtain ⟨cells, rowsRead, h⟩ := Option.bind_eq_some_iff.mp h
    cases h
    obtain ⟨g, written, alike⟩ := alike_of_record parts columnsRead indexRead rowsRead
    exact .frame written alike
  · cases h

/-- Each kind of value is read from what its document holds. -/
theorem ReadAs.agree (h : ReadAs j v) : Agree j v := by
  obtain ⟨fuel, room, h⟩ := h
  cases fuel with
  | zero => cases h
  | succ fuel =>
    cases j with
    | string name =>
      obtain ⟨-, h⟩ := Option.ite_none_right_eq_some.mp h
      cases h
      exact ⟨.nil, nofun, nofun⟩
    | object fields =>
      match fields, h with
      | [(name, content)], h =>
        cases tagged_of_ofTaggedWithin h with
        | leaf tag empty frameless => exact .of_leaf tag empty frameless
        | list read => exact .of_list read
        | object read => exact .of_object read
        | frame written alike => exact .of_frame written alike
      | [], h | _ :: _ :: _, h => cases h
    | null | bool _ | number _ | array _ | unreadable => cases h

/-- Each frame in a value that is read from a document is written in the document, in its shape. -/
theorem ReadAs.written (h : ReadAs j v) {frame : Frame} (inside : Inside parts (.frame frame) v) :
    ∃ d g, Inside Json.parts d j ∧ d.frame? = some g ∧ g.SameShape frame := by
  obtain ⟨d, within, read⟩ := inside.counterpart (fun _ _ read => read.agree.parts) h
  obtain ⟨g, own⟩ := read.agree.written frame rfl
  obtain ⟨_, same, alike⟩ := read.agree.frame g own
  cases same
  exact ⟨d, g, within, own, alike.sameShape⟩

/-- Each frame that is written in a document is in the value that is read from it, in its shape. -/
theorem ReadAs.reads (h : ReadAs j v) {d : Json} {g : Grid Json} (inside : Inside Json.parts d j)
    (own : d.frame? = some g) : ∃ frame, Inside parts (.frame frame) v ∧ g.SameShape frame := by
  obtain ⟨w, within, read⟩ := inside.counterpart (R := flip ReadAs)
    (fun _ _ read => read.agree.parts.flip) h
  obtain ⟨frame, rfl, alike⟩ := read.agree.frame g own
  exact ⟨frame, within, alike.sameShape⟩

end Value

namespace Frame

/-- Reads a frame document that stands alone as it would be read under its tag. -/
def ofTagged (content : Json) : Option Frame :=
  match Value.ofTaggedWithin (Value.maxNesting + 2) (Value.maxNesting + 1)
      (.object [("Frame", content)]) with
  | some (.frame frame) => some frame
  | _ => none

/-- What a frame is made of, or the text that it is read from. -/
inductive Source
  | numbered (columns : List String) (rows : List (List Value))
  | labelled (columns : List String) (index : List Value) (rows : List (List Value))
  | table (text : String)
  | valueText (text : String)
  | frameText (text : String)

namespace Source

/-- The tagged document of a text, and the value that is read from it. -/
def Reads : Source → Json → Value → Prop
  | valueText text, j, v => Json.ofText text = some j ∧ Value.ofTagged j = some v
  | frameText text, j, v => ∃ content frame, Json.ofText text = some content ∧
      ofTagged content = some frame ∧ j = .object [("Frame", content)] ∧ v = .frame frame
  | _, _, _ => False

/-- The frame is made so, or is in the value that is read. -/
def Gives : Source → Frame → Prop
  | numbered columns rows, frame => Frame.numbered columns rows = .ok frame
  | labelled columns index rows, frame => Grid.ofParts columns index rows = .ok frame
  | table text, frame => Tsv.ofText text = .ok frame
  | source, frame => ∃ j v, source.Reads j v ∧ Inside Value.parts (.frame frame) v

/-- All frames that a text writes have one label for each row, and one cell for each column in every
row. -/
def Even (source : Source) : Prop :=
  ∀ j v, source.Reads j v → ∀ d g, Inside Json.parts d j → d.frame? = some g → g.Rectangular

end Source

/-- Whoever takes a frame apart finds a cell wherever one is looked for: a column has one of each
row, no row is missing in the table, and every row of what is shown is as wide as the first. -/
structure Complete (frame : Frame) : Prop where
  column : ∀ name i, frame.columns.idxOf? name = some i →
    frame.rows.mapM (·[i]?) = frame.column name
  table : (Tsv.table frame).length = frame.rows.length + 1
  shown : ∀ cells ∈ Shell.shownCells frame, cells.length = frame.columns.length + 1

variable {frame : Frame}

theorem complete_of_rectangular (h : frame.Rectangular) : frame.Complete := by
  refine ⟨fun name i place => ?_, ?_, fun cells mem => ?_⟩
  · have inside : i < frame.columns.length := by
      obtain ⟨lt, -⟩ := List.findIdx?_eq_some_iff_getElem.mp place
      exact lt
    rw [Grid.column, place, Option.map_some, Grid.cellsAt]
    exact Grid.mapM_getElem? fun row mem => by rwa [h.2 row mem]
  · rw [Tsv.table, List.length_cons, List.length_zipWith, h.1, Nat.min_self]
  · rw [Shell.shownCells] at mem
    rcases List.mem_cons.mp mem with rfl | mem
    · simp
    · obtain ⟨⟨label, row⟩, own, rfl⟩ := List.mem_map.mp mem
      simp [h.2 row (List.of_mem_zip own).2]

theorem rectangular_of_ofText {text : String} (h : Tsv.ofText text = .ok frame) :
    frame.Rectangular := by
  rcases Tsv.toFrame_cases text.toList with ⟨error, failed, -⟩ | ⟨_, _, read, made, assembled⟩
  · cases failed.symm.trans h
  · cases made.symm.trans h
    exact assembled.rectangular

namespace Source

theorem Reads.readAs {source : Source} {j : Json} {v : Value} (h : source.Reads j v) :
    Value.ReadAs j v := by
  cases source with
  | numbered | labelled | table => exact h.elim
  | valueText text => exact ⟨_, _, h.2⟩
  | frameText text =>
    obtain ⟨content, frame, -, read, rfl, rfl⟩ := h
    unfold ofTagged at read
    split at read
    · next frame' tagged =>
      cases read
      exact ⟨_, _, tagged⟩
    · cases read

theorem rectangular_of_even (source : Source) (even : source.Even) (given : source.Gives frame) :
    frame.Rectangular := by
  have read : (∃ j v, source.Reads j v ∧ Inside Value.parts (.frame frame) v) →
      frame.Rectangular := by
    intro ⟨j, v, reads, inside⟩
    obtain ⟨d, g, within, own, same⟩ := reads.readAs.written inside
    exact same.rectangular_iff.mp (even j v reads d g within own)
  cases source with
  | numbered columns rows => exact Grid.rectangular_of_ofParts given
  | labelled columns index rows => exact Grid.rectangular_of_ofParts given
  | table text => exact rectangular_of_ofText given
  | valueText text | frameText text => exact read given

theorem even_of_rectangular (source : Source)
    (rectangular : ∀ frame, source.Gives frame → frame.Rectangular) : source.Even := by
  intro j v reads d g within own
  obtain ⟨frame, inside, same⟩ := reads.readAs.reads within own
  have given : source.Gives frame := by
    cases source with
    | numbered | labelled | table => exact reads.elim
    | valueText text | frameText text => exact ⟨j, v, reads, inside⟩
  exact same.rectangular_iff.mpr (rectangular frame given)

/-- A frame that is made of parts or read from a table is rectangular. The frames that are read from
a document are exactly if the document writes all of them so. What uses a rectangular frame finds
all cells. -/
theorem frames_are_rectangular (source : Source) :
    (source.Even ↔ ∀ frame, source.Gives frame → frame.Rectangular) ∧
    (source.Even → ∀ frame, source.Gives frame → frame.Complete) := by
  have rectangular : source.Even ↔ ∀ frame, source.Gives frame → frame.Rectangular :=
    ⟨fun even frame => source.rectangular_of_even even, source.even_of_rectangular⟩
  exact ⟨rectangular,
    fun even frame given => complete_of_rectangular (rectangular.mp even frame given)⟩

/-- A frame of one column, with a row that has no cell and no label. -/
def ragged : Json :=
  .object [("Frame", .object [("columns", .array [.string "a"]), ("index", .array []),
    ("rows", .array [.array []])])]

/-- The shape of a frame is not checked when it is read from a document. -/
theorem frames_are_rectangular_ragged :
    (valueText ragged.compact).Gives ⟨["a"], [], [[]]⟩ ∧
      ¬ Grid.Rectangular (⟨["a"], [], [[]]⟩ : Frame) ∧ ¬ (valueText ragged.compact).Even := by
  have plain : ragged.Plain := by
    refine .object (List.forall_mem_singleton.mpr (.object ?_))
    simp only [List.forall_mem_cons, List.not_mem_nil, false_implies, implies_true, and_true]
    have empty : (Json.array []).Plain := .array (List.forall_mem_nil _)
    exact ⟨.array (List.forall_mem_singleton.mpr (.string "a")), empty,
      .array (List.forall_mem_singleton.mpr empty)⟩
  have given : (valueText ragged.compact).Gives ⟨["a"], [], [[]]⟩ :=
    ⟨ragged, .frame ⟨["a"], [], [[]]⟩, ⟨Json.ofText_compact plain, rfl⟩, .self⟩
  have uneven : ¬ Grid.Rectangular (⟨["a"], [], [[]]⟩ : Frame) := by decide
  refine ⟨given, uneven, fun even => ?_⟩
  exact uneven ((frames_are_rectangular (valueText ragged.compact)).1.mp even _ given)

end Source
end Frame
end ObjectVault
