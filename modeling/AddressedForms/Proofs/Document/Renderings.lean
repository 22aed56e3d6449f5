import Mathlib
import AddressedForms.Document.Manuscript
import AddressedForms.Document.Reader
import AddressedForms.Proofs.Cbor.Items
import AddressedForms.Proofs.Hash.Canonical
import AddressedForms.Proofs.Json.Layout
import AddressedForms.Proofs.Table
set_option autoImplicit false

/-!
Renderings of nodes. A node comes back from its compact text, from its indented text and from its
bytes, as long as readers can follow the nesting. Two containers are opened for each level of nodes:
the node itself and the list of its children, or its attributes where it has no children.
-/

namespace AddressedForms
open Canonical (countable)

namespace Node

mutual
def height : Node → Nat
  | ⟨_,_,children⟩ => heights children+1
def heights : List Node → Nat
  | [] => 0
  | n :: ns => max n.height (heights ns)
end

mutual
def isCountable : Node → Bool
  | ⟨tag,attrs,children⟩ => countable (utf8 tag).length && countable attrs.size &&
    attrs.entries.all (fun e => countable (utf8 e.1).length && countable (utf8 e.2).length) &&
    countable children.length && allCountable children
def allCountable : List Node → Bool
  | [] => true
  | n :: ns => n.isCountable && allCountable ns
end

/-- The fields that are written: attributes and children only where there are any. -/
def fields (n : Node) : List String :=
  "tag" :: ((if n.attrs.isEmpty then [] else ["attrs"]) ++
    (if n.children.isEmpty then [] else ["children"]))

def written {α β : Type} (n : Node) (key : String → α) (tag attrs children : β) : List (α × β) :=
  (key "tag",tag) :: ((if n.attrs.isEmpty then [] else [(key "attrs",attrs)]) ++
    (if n.children.isEmpty then [] else [(key "children",children)]))

theorem map_fst_written {α β : Type} (n : Node) (key : String → α) (tag attrs children : β) :
    (n.written key tag attrs children).map Prod.fst = n.fields.map key := by
  unfold written fields
  split_ifs <;> rfl

section Json
variable {depth : Nat}

def members (n : Node) : List (Option String × Json) :=
  n.written some (.string (some n.tag)) (attrsJson n.attrs) (.array (n.children.map json))

theorem json_eq (n : Node) : n.json = .object n.members := by
  have hall (ns : List Node) : jsons ns = ns.map json := by
    induction ns with
    | nil => rfl
    | cons n ns ih => rw [jsons,ih]; rfl
  cases n
  rw [json,hall]
  rfl

theorem textual_attrsJson (t : Table String) : (attrsJson t).Textual := by
  refine .object (fun m hm => ?_) fun m hm => ?_ <;>
    obtain ⟨e,-,rfl⟩ := List.mem_map.mp hm
  · rfl
  · exact .string _

theorem textual_json (n : Node) : n.json.Textual := by
  induction n using Node.rec (motive_2 := fun ns => ∀ x ∈ ns.map json, x.Textual) with
  | mk tag attrs children ih =>
    have hmembers : ∀ m ∈ members ⟨tag,attrs,children⟩, m.1.isSome ∧ m.2.Textual := by
      refine List.forall_mem_cons.mpr ⟨⟨rfl,.string tag⟩,List.forall_mem_append.mpr ⟨?_,?_⟩⟩ <;>
        split
      · exact List.forall_mem_nil _
      · exact List.forall_mem_singleton.mpr ⟨rfl,textual_attrsJson attrs⟩
      · exact List.forall_mem_nil _
      · exact List.forall_mem_singleton.mpr ⟨rfl,.array ih⟩
    rw [json_eq]
    exact .object (fun m hm => (hmembers m hm).1) fun m hm => (hmembers m hm).2
  | nil x hx => cases hx
  | cons n ns ihn ihns x hx =>
    rcases List.mem_cons.mp hx with rfl | hx
    · exact ihn
    · exact ihns x hx

theorem keysAreTexts_members (n : Node) : Json.keysAreTexts n.members := by
  unfold Json.keysAreTexts members written
  split_ifs <;> rfl

theorem unique?_tag (n : Node) :
    Json.unique? "tag" n.members = some (some (.string (some n.tag))) := by
  unfold members written
  split_ifs <;> rfl

theorem unique?_attrs (n : Node) : Json.unique? "attrs" n.members =
    some (if n.attrs.isEmpty then none else some (attrsJson n.attrs)) := by
  unfold members written
  split_ifs <;> rfl

theorem unique?_children (n : Node) : Json.unique? "children" n.members =
    some (if n.children.isEmpty then none else some (.array (n.children.map json))) := by
  unfold members written
  split_ifs <;> rfl

theorem attrsOfJson?_attrsJson (t : Table String) : attrsOfJson? (attrsJson t) = some t := by
  have hinsert (es : List (String × String)) (t : Table String) :
      attrsOfMembers? (es.map fun e => (some e.1,.string (some e.2))) t =
        some (es.foldl (fun t e => t.insert e.1 e.2) t) := by
    induction es generalizing t with
    | nil => rfl
    | cons e es ih => exact ih _
  exact (hinsert t.entries .empty).trans (congrArg some t.ofList_entries)

theorem ofJson?_object {ms : List (Option String × Json)} {tag : String} {a c : Option Json}
    {attrs : Table String} {children : List Node} (hk : Json.keysAreTexts ms)
    (ht : Json.unique? "tag" ms = some (some (.string (some tag))))
    (ha : Json.unique? "attrs" ms = some a) (hc : Json.unique? "children" ms = some c)
    (hattrs : a.elim (some .empty) attrsOfJson? = some attrs)
    (hchildren : c.elim (some []) (ofArray? (depth+1)) = some children) :
    ofJson? (depth+2) (.object ms) = some ⟨tag,attrs,children⟩ := by
  rw [ofJson?]
  simp only [hk,ht,ha,hc]
  cases a <;> cases c <;> simp only [Option.elim] at hattrs hchildren <;>
    simp only [Option.bind_eq_bind,Option.bind_some,Json.text?,Bool.not_true,Bool.false_eq_true,
      if_false,Nat.add_eq_zero_iff,Nat.one_ne_zero,and_false,hattrs,hchildren]

theorem ofJson?_json (n : Node) (h : 2*n.height ≤ depth) : ofJson? depth n.json = some n := by
  induction n using Node.rec (motive_2 := fun ns => ∀ depth, 2*heights ns ≤ depth →
    (ns.map json).mapM (fun x => ofJson? depth x) = some ns) generalizing depth with
  | mk tag attrs children ih =>
    rw [height] at h
    -- the object of the node is one container, the array of its children the other
    obtain ⟨depth,rfl⟩ : ∃ d, depth = d+2 := ⟨depth-2,by omega⟩
    rw [json_eq]
    refine ofJson?_object (keysAreTexts_members _) (unique?_tag _) (unique?_attrs _)
      (unique?_children _) ?_ ?_ <;> dsimp only <;> split <;> rename_i hempty
    · exact congrArg some (Table.eq_empty_of_isEmpty hempty).symm
    · exact attrsOfJson?_attrsJson attrs
    · exact congrArg some (List.isEmpty_iff.mp hempty).symm
    · exact ih depth (by omega)
  | nil => rfl
  | cons n ns ihn ihns depth h =>
    rw [heights] at h
    rw [List.map_cons,List.mapM_cons,ihn (by omega),ihns depth (by omega)]
    rfl

end Json

section Cbor
open Cbor
variable {depth : Nat}

def attrsItem (t : Table String) : Item := .map (t.entries.map fun e => (.text e.1,.text e.2))

mutual
def item : Node → Item
  | ⟨tag,attrs,children⟩ =>
    .map ((.text "tag",.text tag) ::
      ((if attrs.isEmpty then [] else [(.text "attrs",attrsItem attrs)]) ++
        (if children.isEmpty then [] else [(.text "children",.array (items children))])))
def items : List Node → List Item
  | [] => []
  | n :: ns => n.item :: items ns
end

theorem items_eq (ns : List Node) : items ns = ns.map item := by
  induction ns with
  | nil => rfl
  | cons n ns ih => rw [items,ih]; rfl

def entries (n : Node) : List (Item × Item) :=
  n.written .text (.text n.tag) (attrsItem n.attrs) (.array (n.children.map item))

theorem item_eq (n : Node) : n.item = .map n.entries := by
  cases n
  rw [item,items_eq]
  rfl

theorem all_field?_entries (n : Node) : n.entries.all fun e => e.1.field?.isSome := by
  unfold entries written
  split_ifs <;> rfl

theorem unique?_tag_entries (n : Node) :
    Item.unique? .tag n.entries = some (some (.text n.tag)) := by
  unfold entries written
  split_ifs <;> rfl

theorem unique?_attrs_entries (n : Node) : Item.unique? .attrs n.entries =
    some (if n.attrs.isEmpty then none else some (attrsItem n.attrs)) := by
  unfold entries written
  split_ifs <;> rfl

theorem unique?_children_entries (n : Node) : Item.unique? .children n.entries =
    some ((if n.children.isEmpty then none else some (n.children.map item)).map .array) := by
  unfold entries written
  split_ifs <;> rfl

theorem attrsOfItem?_attrsItem (t : Table String) : attrsOfItem? (attrsItem t) = some t := by
  have hinsert (es : List (String × String)) (t : Table String) :
      attrsOfEntries? (es.map fun e => (.text e.1,.text e.2)) t =
        some (es.foldl (fun t e => t.insert e.1 e.2) t) := by
    induction es generalizing t with
    | nil => rfl
    | cons e es ih => exact ih _
  exact (hinsert t.entries .empty).trans (congrArg some t.ofList_entries)

theorem ofItem?_map {es : List (Item × Item)} {tag : String} {a : Option Item}
    {c : Option (List Item)} {attrs : Table String} {children : List Node}
    (hk : es.all fun e => e.1.field?.isSome) (ht : Item.unique? .tag es = some (some (.text tag)))
    (ha : Item.unique? .attrs es = some a) (hc : Item.unique? .children es = some (c.map .array))
    (hattrs : a.elim (some .empty) attrsOfItem? = some attrs)
    (hchildren : c.elim (some []) (fun xs => xs.mapM fun x => ofItem? depth x) = some children) :
    ofItem? (depth+1) (.map es) = some ⟨tag,attrs,children⟩ := by
  rw [ofItem?]
  simp only [hk,ht,ha,hc]
  cases a <;> cases c <;> simp only [Option.elim] at hattrs hchildren <;>
    simp only [Option.bind_eq_bind,Option.bind_some,Option.map_some,Option.map_none,Item.text?,
      Bool.not_true,Bool.false_eq_true,if_false,hattrs,hchildren]

theorem ofItem?_item (n : Node) (h : n.height ≤ depth) : ofItem? depth n.item = some n := by
  induction n using Node.rec (motive_2 := fun ns => ∀ depth, heights ns ≤ depth →
    (ns.map item).mapM (fun x => ofItem? depth x) = some ns) generalizing depth with
  | mk tag attrs children ih =>
    rw [height] at h
    obtain ⟨depth,rfl⟩ := Nat.exists_eq_add_one.mpr (Nat.zero_lt_of_lt h)
    rw [item_eq]
    refine ofItem?_map (all_field?_entries _) (unique?_tag_entries _) (unique?_attrs_entries _)
      (unique?_children_entries _) ?_ ?_ <;> dsimp only <;> split <;> rename_i hempty
    · exact congrArg some (Table.eq_empty_of_isEmpty hempty).symm
    · exact attrsOfItem?_attrsItem attrs
    · exact congrArg some (List.isEmpty_iff.mp hempty).symm
    · exact ih depth (by omega)
  | nil => rfl
  | cons n ns ihn ihns depth h =>
    rw [heights] at h
    rw [List.map_cons,List.mapM_cons,ihn (by omega),ihns depth (by omega)]
    rfl

theorem readsEntries_attrBytes {es : List (String × String)}
    (h : ∀ e ∈ es, countable (utf8 e.1).length ∧ countable (utf8 e.2).length) :
    ReadsEntries depth (es.map fun e => (.text e.1,.text e.2)) (attrBytes es) := by
  induction es with
  | nil => exact readsEntries_nil
  | cons e es ih =>
    obtain ⟨⟨hk,hv⟩,hes⟩ := List.forall_mem_cons.mp h
    rw [attrBytes,List.append_assoc]
    exact readsEntries_cons (reads_text (of_decide_eq_true hk)) (reads_text (of_decide_eq_true hv))
      (ih hes)

theorem reads_attrsItem {t : Table String} (hn : countable t.size)
    (h : ∀ e ∈ t.entries, countable (utf8 e.1).length ∧ countable (utf8 e.2).length) :
    Reads (depth+1) (attrsItem t) (head 5 t.size ++ attrBytes t.entries) := by
  have hentries : ReadsEntries depth _ _ := readsEntries_attrBytes h
  have hread := reads_map (by simpa [Table.size] using of_decide_eq_true hn) hentries
  rwa [List.length_map] at hread

theorem readsEntries_unless (b : Bool) {k x : Item} {es : List (Item × Item)}
    {bs cs ds : List UInt8} (hk : Reads depth k bs) (hx : Reads depth x cs)
    (hs : ReadsEntries depth es ds) : ReadsEntries depth ((if b then [] else [(k,x)]) ++ es)
      ((if b then [] else bs ++ cs) ++ ds) := by
  cases b with
  | true => exact hs
  | false => simpa using readsEntries_cons hk hx hs

theorem cbor_eq (tag : String) (attrs : Table String) (children : List Node) :
    cbor ⟨tag,attrs,children⟩ = head 5 (entries ⟨tag,attrs,children⟩).length ++
      (textBytes "tag" ++ (textBytes tag ++
        ((if attrs.isEmpty then []
          else textBytes "attrs" ++ (head 5 attrs.size ++ attrBytes attrs.entries)) ++
        (if children.isEmpty then []
          else textBytes "children" ++ (head 4 children.length ++ cbors children))))) := by
  rw [cbor,entries,written]
  split_ifs <;> simp

theorem reads_item (n : Node) (hc : n.isCountable) (h : 2*n.height ≤ depth) :
    Reads depth n.item n.cbor := by
  induction n using Node.rec (motive_2 := fun ns => ∀ depth, allCountable ns →
    2*heights ns ≤ depth → ReadsItems depth (ns.map item) (cbors ns)) generalizing depth with
  | mk tag attrs children ih =>
    rw [height] at h
    obtain ⟨depth,rfl⟩ : ∃ d, depth = d+2 := ⟨depth-2,by omega⟩
    simp only [isCountable,Bool.and_eq_true,List.all_eq_true] at hc
    obtain ⟨⟨⟨⟨htag,hsize⟩,hattrs⟩,hlength⟩,hchildren⟩ := hc
    have harray : Reads (depth+1) (.array (children.map item))
        (head 4 children.length ++ cbors children) := by
      have hread := reads_array (by simpa using of_decide_eq_true hlength)
        (ih depth hchildren (by omega))
      rwa [List.length_map] at hread
    have hlast := readsEntries_unless children.isEmpty
      (reads_text (s := "children") (by decide)) harray readsEntries_nil
    rw [List.append_nil,List.append_nil] at hlast
    have hentries : ReadsEntries (depth+1) (entries ⟨tag,attrs,children⟩) _ :=
      readsEntries_cons (reads_text (s := "tag") (by decide))
        (reads_text (of_decide_eq_true htag))
        (readsEntries_unless attrs.isEmpty (reads_text (s := "attrs") (by decide))
          (reads_attrsItem hsize hattrs) hlast)
    have hcount : (entries ⟨tag,attrs,children⟩).length < 0x10000000000000000 := by
      unfold entries written
      split_ifs <;> simp
    rw [item_eq,cbor_eq]
    simpa using reads_map hcount hentries
  | nil => exact readsItems_nil
  | cons n ns ihn ihns depth hc h =>
    rw [heights] at h
    obtain ⟨hn,hns⟩ := Bool.and_eq_true_iff.mp hc
    exact readsItems_cons (ihn hn (by omega)) (ihns depth hns (by omega))

end Cbor

/-- A text that is read as the object of a node is read as the node. -/
theorem ofJsonBytes?_of_reads {n : Node} {bs : List UInt8} (h : Json.Reads n.json bs)
    (hn : n.height ≤ 63) : ofJsonBytes? bs = some n := by
  rw [ofJsonBytes?,h.parse?]
  exact ofJson?_json n (by unfold maxJsonDepth; omega)

theorem reads_rendering {n : Node} {text : String}
    (h : text = n.compactText ∨ text = n.prettyText) : Json.Reads n.json (utf8 text) := by
  rcases h with rfl | rfl
  · exact (textual_json n).reads_compact
  · exact (textual_json n).reads_indented 0

theorem parse?_cbor {n : Node} (hc : n.isCountable) (hn : n.height ≤ 63) :
    Cbor.parse? n.cbor = some n.item := by
  have hread : Cbor.Reads Cbor.maxDepth n.item n.cbor :=
    reads_item n hc (by unfold Cbor.maxDepth; omega)
  exact hread.parse?

theorem ofCborBytes?_cbor {n : Node} (hc : n.isCountable) (hn : n.height ≤ 63) :
    ofCborBytes? n.cbor = some n := by
  rw [ofCborBytes?,parse?_cbor hc hn]
  exact ofItem?_item n (by unfold Cbor.maxDepth; omega)

end Node

namespace Manuscript

theorem jsonText_eq (m : Manuscript) (s : Settings) :
    m.jsonText s = m.node.compactText ∨ m.jsonText s = m.node.prettyText := by
  unfold jsonText
  split
  · exact .inr rfl
  · exact .inl rfl

theorem nodeOf?_bytes {m : Manuscript} {s : Settings} {a : Reader} (hn : m.node.height ≤ 63)
    (hc : s.format = .cbor → m.node.isCountable) (hs : s.format = a.settings.format) :
    a.nodeOf? (m.bytes s) = some m.node := by
  rw [Reader.nodeOf?,bytes,← hs]
  cases hf : s.format with
  | json => exact Node.ofJsonBytes?_of_reads (Node.reads_rendering (m.jsonText_eq s)) hn
  | cbor => exact Node.ofCborBytes?_cbor (hc hf) hn

end Manuscript

/-- All renderings of a node that is nested at most 63 deep come back as that node, and leave out
what is empty. So it makes no difference whether a manuscript is read as a node, from the bytes of
its format, from a stream of them, or from its text: outcome, reader and repository are the same. -/
theorem Reader.readBytes_bytes :
    (∀ n : Node, n.height ≤ 63 →
      (∀ text, text = n.compactText ∨ text = n.prettyText →
        Node.ofJsonBytes? (utf8 text) = some n ∧
        ∃ ms, Json.parse? (utf8 text) = some (.object ms) ∧
          ms.map Prod.fst = n.fields.map some) ∧
      (n.isCountable → Node.ofCborBytes? n.cbor = some n ∧
        ∃ es, Cbor.parse? n.cbor = some (.map es) ∧ es.map Prod.fst = n.fields.map .text)) ∧
    ∀ (m : Manuscript) (s : Settings) (a : Reader) (r : Repository), m.node.height ≤ 63 →
      a.readText (m.jsonText s) r = a.readNode m.node r ∧
      (s.format = a.settings.format → (s.format = .cbor → m.node.isCountable) →
        a.readBytes (m.bytes s) r = a.readNode m.node r ∧
        a.readStream (some (m.bytes s)) r = a.readNode m.node r) := by
  refine ⟨fun n hn => ⟨fun text htext => ⟨?_,?_⟩,fun hc => ⟨?_,?_⟩⟩,fun m s a r hn =>
    ⟨?_,fun hs hc => ⟨?_,?_⟩⟩⟩
  · exact Node.ofJsonBytes?_of_reads (Node.reads_rendering htext) hn
  · exact ⟨n.members,n.json_eq ▸ (Node.reads_rendering htext).parse?,n.map_fst_written ..⟩
  · exact Node.ofCborBytes?_cbor hc hn
  · exact ⟨n.entries,n.item_eq ▸ Node.parse?_cbor hc hn,n.map_fst_written ..⟩
  · exact congrArg (a.readNode? · r)
      (Node.ofJsonBytes?_of_reads (Node.reads_rendering (m.jsonText_eq s)) hn)
  · exact congrArg (a.readNode? · r) (Manuscript.nodeOf?_bytes hn hc hs)
  · exact congrArg (a.readNode? · r) (Manuscript.nodeOf?_bytes hn hc hs)

def Manuscript.flats : Manuscript :=
  ((Manuscript.empty .empty).write (.module "B♭ \"flat\"\\\n\x01" .z)).2

/-- Text and bytes of the name are read alike. -/
theorem Reader.readBytes_flats :
    let a : Reader := .new .builtins .cbor
    let m := Manuscript.flats
    m.node.height = 3 ∧ m.node.isCountable ∧
    (default.readBytes (m.bytes .default) .empty).1.symbols.modules =
      [("B♭ \"flat\"\\\n\x01",.z)] ∧
    (a.readBytes (m.bytes .cbor) .empty).1.symbols.modules =
      [("B♭ \"flat\"\\\n\x01",.z)] := by
  intro a m
  have hheight : m.node.height = 3 := by cbv
  have hcount : m.node.isCountable := by cbv
  obtain ⟨-,hrenderings⟩ := readBytes_bytes
  obtain ⟨-,hjson⟩ := hrenderings m .default default .empty (by omega)
  obtain ⟨-,hcbor⟩ := hrenderings m .cbor a .empty (by omega)
  refine ⟨hheight,hcount,?_,?_⟩
  · rw [(hjson rfl fun _ => hcount).1]
    cbv
  · rw [(hcbor rfl fun _ => hcount).1]
    cbv

end AddressedForms
