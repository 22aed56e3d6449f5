import AddressedForms.Document.Definitions
import AddressedForms.Proofs.Document.DenotatorNodes
import AddressedForms.Proofs.Document.FormNodes
import AddressedForms.Proofs.Table
import Mathlib.Data.List.Perm.Basic
set_option autoImplicit false

/-!
What the nodes of a document hold, each by itself. Collecting them one after another comes to all
they hold if no name comes twice, and to a clash that is reported otherwise; so the order in which
they are collected does not matter.
-/

namespace AddressedForms

/-- Whether a name that is taken was given again. -/
def Clashes (es : List ReadError) : Prop := ∃ s name, .duplicateName s name ∈ es

theorem Clashes.mono {es fs : List ReadError} (h : Clashes es) (hs : es ⊆ fs) : Clashes fs := by
  obtain ⟨s,name,hmem⟩ := h
  exact ⟨s,name,hs hmem⟩

namespace FormSketches
variable {s t u r r' : FormSketches}

def names (s : FormSketches) : List String := s.sketches.map FormSketch.name

instance : Append FormSketches := ⟨fun s t => ⟨s.sketches ++ t.sketches,s.reports ++ t.reports⟩⟩

@[simp] theorem sketches_append (s t : FormSketches) :
    (s ++ t).sketches = s.sketches ++ t.sketches := rfl

@[simp] theorem reports_append (s t : FormSketches) :
    (s ++ t).reports = s.reports ++ t.reports := rfl

@[simp] theorem names_append (s t : FormSketches) : (s ++ t).names = s.names ++ t.names :=
  List.map_append

theorem append_assoc (s t u : FormSketches) : s ++ t ++ u = s ++ (t ++ u) :=
  congrArg₂ mk (List.append_assoc ..) (List.append_assoc ..)

theorem append_faults (s : FormSketches) (es : List ReadError) : s ++ ⟨[],es⟩ = s.reportAll es :=
  congrArg₂ mk (List.append_nil _) rfl

@[simp] theorem reportAll_nil (s : FormSketches) : s.reportAll [] = s :=
  congrArg₂ mk rfl (List.append_nil _)

mutual
def allOf (top : Bool) : Node → FormSketches
  | ⟨tag,attrs,children⟩ =>
    if (attrs.get? "ref").isSome then .empty
    else match FormSketch.header ⟨tag,attrs,children⟩ with
    | ⟨none,es⟩ => ⟨[],es⟩
    | ⟨some (name,kind),_⟩ =>
      (if kind = .simple then .empty else allOfParts children) ++
        ⟨[],FormSketch.faults ⟨tag,attrs,children⟩ name kind⟩ ++
        ⟨[FormSketch.ofNode top ⟨tag,attrs,children⟩ name kind],[]⟩
def allOfParts : List Node → FormSketches
  | [] => .empty
  | n :: ns => if n.isForm then allOf false n ++ allOfParts ns else allOfParts ns
end

theorem allOf_eq (top : Bool) (n : Node) : allOf top n =
    if n.reference?.isSome then .empty
    else match FormSketch.header n with
    | ⟨none,es⟩ => ⟨[],es⟩
    | ⟨some (name,kind),_⟩ =>
      (if kind = .simple then .empty else allOfParts n.children) ++
        ⟨[],FormSketch.faults n name kind⟩ ++ ⟨[FormSketch.ofNode top n name kind],[]⟩ := by
  cases n; unfold allOf; rfl

/-- What adding some sketches to others comes to: all of them, or a clash. -/
structure Adds (s t r : FormSketches) : Prop where
  nodup : r.names.Nodup
  reports : s.reports <+: r.reports
  result : (s ++ t).names.Nodup ∧ r = s ++ t ∨ ¬ (s ++ t).names.Nodup ∧ Clashes r.reports

theorem adds_empty (h : s.names.Nodup) : Adds s .empty s := by
  have he : s ++ .empty = s := (append_faults s []).trans s.reportAll_nil
  exact ⟨h,List.prefix_rfl,.inl ⟨he.symm ▸ h,he.symm⟩⟩

theorem Adds.trans (h : Adds s t r) (k : Adds r u r') : Adds s (t ++ u) r' := by
  refine ⟨k.nodup,h.reports.trans k.reports,?_⟩
  rw [← append_assoc]
  rcases h.result with ⟨-,rfl⟩ | ⟨hn,hc⟩
  · exact k.result
  · refine .inr ⟨fun hall => hn ?_,hc.mono k.reports.subset⟩
    rw [names_append] at hall
    exact (List.nodup_append.mp hall).1

theorem adds_reportAll (h : s.names.Nodup) (es : List ReadError) :
    Adds s ⟨[],es⟩ (s.reportAll es) := by
  have he := append_faults s es
  exact ⟨h,List.prefix_append _ _,.inl ⟨he.symm ▸ h,he.symm⟩⟩

theorem named?_eq_none_iff (s : FormSketches) (name : String) :
    s.named? name = none ↔ name ∉ s.names := by
  simp [named?,names]

theorem adds_push (h : s.names.Nodup) (f : FormSketch) : Adds s ⟨[f],[]⟩ (s.push f) := by
  have hnodup : (s ++ ⟨[f],[]⟩).names.Nodup ↔ f.name ∉ s.names := by
    simp only [names] at h
    simp [names,List.nodup_append,h]
  unfold push
  cases hf : s.named? f.name with
  | none =>
    have he : s ++ ⟨[f],[]⟩ = {s with sketches := s.sketches ++ [f]} :=
      congrArg₂ mk rfl (List.append_nil _)
    have hall := hnodup.mpr ((named?_eq_none_iff s f.name).mp hf)
    exact ⟨he ▸ hall,List.prefix_rfl,.inl ⟨hall,he.symm⟩⟩
  | some e =>
    have hmem : ¬ f.name ∉ s.names := by
      rw [← named?_eq_none_iff,hf]
      simp
    exact ⟨h,List.prefix_append _ _,.inr ⟨mt hnodup.mp hmem,.form,f.name,by simp [reportAll]⟩⟩

theorem adds_add (top : Bool) (n : Node) (h : s.names.Nodup) :
    Adds s (allOf top n) (add top n s) := by
  induction n using Node.rec (motive_2 := fun ns => ∀ s : FormSketches, s.names.Nodup →
    Adds s (allOfParts ns) (addParts ns s)) generalizing top s with
  | mk tag attrs children ih =>
    rw [add_eq,allOf_eq]
    split
    · exact adds_empty h
    · obtain ⟨header,es⟩ := FormSketch.header ⟨tag,attrs,children⟩
      cases header with
      | none => exact adds_reportAll h es
      | some header =>
        obtain ⟨name,kind⟩ := header
        have hinner : Adds s (if kind = .simple then .empty else allOfParts children)
            (if kind = .simple then s else addParts children s) := by
          split
          · exact adds_empty h
          · exact ih s h
        have hfaults := adds_reportAll hinner.nodup
          (FormSketch.faults ⟨tag,attrs,children⟩ name kind)
        exact (hinner.trans hfaults).trans (adds_push hfaults.nodup _)
  | nil =>
    rename_i h
    exact adds_empty h
  | cons n ns ihn ihns =>
    rename_i s h
    rw [addParts,allOfParts]
    split
    · have hn := ihn false h
      exact hn.trans (ihns _ hn.nodup)
    · exact ihns s h

end FormSketches

namespace DenotatorSketch
variable {taken later last : List String} {fs ss fs' ss' : List DenotatorSketch}

mutual
/-- The sketch of a node in which all names are new. -/
def fresh : Node → DenotatorSketch
  | ⟨tag,attrs,children⟩ =>
    match attrs.get? "ref" with
    | some name => .use name
    | none =>
      match attrs.get? "name" with
      | none => .inline ⟨tag,attrs,children⟩ (freshParts children)
      | some name => .define name ⟨tag,attrs,children⟩ (freshParts children)
def freshParts : List Node → List DenotatorSketch
  | [] => []
  | n :: ns => if n.tag = "Denotator" then fresh n :: freshParts ns else freshParts ns
end

theorem fresh_eq (n : Node) : fresh n =
    match n.reference? with
    | some name => .use name
    | none =>
      match n.name? with
      | none => .inline n (freshParts n.children)
      | some name => .define name n (freshParts n.children) := by
  cases n; unfold fresh; rfl

def names (ss : List DenotatorSketch) : List String := (allDefinitions ss).map Prod.fst

theorem names_append (ss ss' : List DenotatorSketch) :
    names (ss ++ ss') = names ss ++ names ss' := by
  simp [names,allDefinitions_eq]

/-- What sketching with some names taken comes to: fresh sketches, or duplicates. -/
structure Takes (taken : List String) (fs ss : List DenotatorSketch) (later : List String) :
    Prop where
  nodup : later.Nodup
  result : (taken ++ names fs).Nodup ∧ ss = fs ∧ later.Perm (taken ++ names fs) ∧
      allDuplicates ss = [] ∨
    ¬ (taken ++ names fs).Nodup ∧ allDuplicates ss ≠ []

theorem takes_nil (h : taken.Nodup) : Takes taken [] [] taken :=
  ⟨h,.inl ⟨by simpa [names,allDefinitions],rfl,by simp [names,allDefinitions],rfl⟩⟩

theorem Takes.append (h : Takes taken fs ss later) (k : Takes later fs' ss' last) :
    Takes taken (fs ++ fs') (ss ++ ss') last := by
  refine ⟨k.nodup,?_⟩
  simp only [names_append,allDuplicates_eq,List.flatMap_append,← List.append_assoc]
  rcases h.result with ⟨-,rfl,hp,hss⟩ | ⟨hn,hss⟩
  · have hp' := hp.append_right (names fs')
    rw [allDuplicates_eq] at hss
    rcases k.result with ⟨hn,rfl,hq,hss'⟩ | ⟨hn,hss'⟩ <;> rw [allDuplicates_eq] at hss'
    · exact .inl ⟨hp'.nodup_iff.mp hn,rfl,hq.trans hp',by simp [hss,hss']⟩
    · exact .inr ⟨mt hp'.nodup_iff.mpr hn,by simp [hss,hss']⟩
  · rw [allDuplicates_eq] at hss
    refine .inr ⟨fun hall => hn (List.nodup_append.mp hall).1,fun he => hss ?_⟩
    exact (List.append_eq_nil_iff.mp he).1

theorem takes_inline {n : Node} (h : Takes taken fs ss later) (hn : n.name? = none) :
    Takes taken [.inline n fs] [.inline n ss] later := by
  refine ⟨h.nodup,?_⟩
  rcases h.result with ⟨hall,rfl,hp,hss⟩ | ⟨hall,hss⟩
  · exact .inl ⟨by simpa [names,allDefinitions,definitions] using hall,rfl,
      by simpa [names,allDefinitions,definitions] using hp,
      by simp [allDuplicates,duplicates,hn,hss]⟩
  · exact .inr ⟨by simpa [names,allDefinitions,definitions] using hall,
      by simp [allDuplicates,duplicates,hn,hss]⟩

theorem takes_define {n : Node} {name : String} (h : Takes (name :: taken) fs ss later) :
    Takes taken [.define name n fs] [.define name n ss] later := by
  have hp : (name :: taken ++ names fs).Perm (taken ++ names [.define name n fs]) := by
    simpa [names,allDefinitions,definitions] using List.perm_middle.symm
  refine ⟨h.nodup,?_⟩
  rcases h.result with ⟨hall,rfl,hq,hss⟩ | ⟨hall,hss⟩
  · exact .inl ⟨hp.nodup_iff.mp hall,rfl,hq.trans hp,by simp [allDuplicates,duplicates,hss]⟩
  · exact .inr ⟨mt hp.nodup_iff.mpr hall,by simp [allDuplicates,duplicates,hss]⟩

theorem takes_taken {n : Node} {name : String} (h : Takes taken fs ss later)
    (hn : n.name? = some name) (ht : name ∈ taken) :
    Takes taken [.define name n fs] [.inline n ss] later := by
  refine ⟨h.nodup,.inr ⟨fun hall => ?_,by simp [allDuplicates,duplicates,hn]⟩⟩
  exact (List.nodup_append.mp hall).2.2 name ht name
    (by simp [names,allDefinitions,definitions]) rfl

theorem takes_ofNode (n : Node) (h : taken.Nodup) :
    Takes taken [fresh n] [(ofNode taken n).1] (ofNode taken n).2 := by
  induction n using Node.rec (motive_2 := fun ns => ∀ taken : List String, taken.Nodup →
    Takes taken (freshParts ns) (ofNodes taken ns).1 (ofNodes taken ns).2) generalizing taken with
  | mk tag attrs children ih =>
    rw [ofNode_eq,fresh_eq]
    cases href : Node.reference? ⟨tag,attrs,children⟩ with
    | some name =>
      exact ⟨h,.inl ⟨by simpa [names,allDefinitions,definitions],rfl,
        by simp [names,allDefinitions,definitions],rfl⟩⟩
    | none =>
      cases hname : Node.name? ⟨tag,attrs,children⟩ with
      | none => exact takes_inline (ih taken h) hname
      | some name =>
        by_cases ht : name ∈ taken
        · simp only [if_pos ht]
          exact takes_taken (ih taken h) hname ht
        · simp only [if_neg ht]
          exact takes_define (ih (name :: taken) (List.nodup_cons.mpr ⟨ht,h⟩))
  | nil =>
    rename_i h
    exact takes_nil h
  | cons n ns ihn ihns =>
    rename_i taken h
    rw [ofNodes,freshParts]
    split
    · have hn := ihn h
      exact hn.append (ihns _ hn.nodup)
    · exact ihns taken h

end DenotatorSketch

inductive LeafKind where
  | module
  | element
  | morphism
  deriving DecidableEq

namespace LeafKind

def symbol : LeafKind → Symbol
  | .module => .module
  | .element => .element
  | .morphism => .morphism

def tag : LeafKind → String
  | .module => "Module"
  | .element => "ModuleElement"
  | .morphism => "ModuleMorphism"

end LeafKind

namespace Definitions

def leaves (d : Definitions) : LeafKind → Table Node
  | .module => d.modules
  | .element => d.elements
  | .morphism => d.morphisms

def withLeaves (d : Definitions) (k : LeafKind) (t : Table Node) : Definitions :=
  match k with
  | .module => {d with modules := t}
  | .element => {d with elements := t}
  | .morphism => {d with morphisms := t}

@[simp] theorem forms_withLeaves (d : Definitions) (k : LeafKind) (t : Table Node) :
    (d.withLeaves k t).forms = d.forms := by cases k <;> rfl

@[simp] theorem sketches_withLeaves (d : Definitions) (k : LeafKind) (t : Table Node) :
    (d.withLeaves k t).sketches = d.sketches := by cases k <;> rfl

@[simp] theorem taken_withLeaves (d : Definitions) (k : LeafKind) (t : Table Node) :
    (d.withLeaves k t).taken = d.taken := by cases k <;> rfl

@[simp] theorem withLeaves_leaves (d : Definitions) (k : LeafKind) :
    d.withLeaves k (d.leaves k) = d := by cases k <;> rfl

theorem leaves_withLeaves (d : Definitions) (k j : LeafKind) (t : Table Node) :
    (d.withLeaves k t).leaves j = if j = k then t else d.leaves j := by
  cases k <;> cases j <;> rfl

end Definitions

/-- What nodes hold, with everything of a name that comes again. -/
structure Contents where
  /-- The sketches of forms, and all that is to be reported. -/
  forms : FormSketches
  sketches : List DenotatorSketch
  leaves : LeafKind → List (String × Node)

namespace Contents
variable {c c' : Contents} {d d' : Definitions} {es : List ReadError} {n : Node}

instance : Append Contents := ⟨fun c c' =>
  ⟨c.forms ++ c'.forms,c.sketches ++ c'.sketches,fun k => c.leaves k ++ c'.leaves k⟩⟩

@[simp] theorem forms_append (c c' : Contents) : (c ++ c').forms = c.forms ++ c'.forms := rfl

@[simp] theorem sketches_append (c c' : Contents) :
    (c ++ c').sketches = c.sketches ++ c'.sketches := rfl

@[simp] theorem leaves_append (c c' : Contents) (k : LeafKind) :
    (c ++ c').leaves k = c.leaves k ++ c'.leaves k := rfl

def names (c : Contents) : Symbol → List String
  | .form => c.forms.names
  | .denotator => DenotatorSketch.names c.sketches
  | .module => (c.leaves .module).map Prod.fst
  | .element => (c.leaves .element).map Prod.fst
  | .morphism => (c.leaves .morphism).map Prod.fst

theorem names_symbol (c : Contents) (k : LeafKind) :
    c.names k.symbol = (c.leaves k).map Prod.fst := by cases k <;> rfl

theorem names_append (c c' : Contents) (s : Symbol) :
    (c ++ c').names s = c.names s ++ c'.names s := by
  cases s with
  | form => exact FormSketches.names_append _ _
  | denotator => exact DenotatorSketch.names_append _ _
  | module | element | morphism => exact List.map_append

def Distinct (c : Contents) : Prop := ∀ s, (c.names s).Nodup

theorem Distinct.left (h : (c ++ c').Distinct) : c.Distinct := fun s =>
  (List.nodup_append.mp (names_append c c' s ▸ h s)).1

theorem distinct_append_iff (h : c.Distinct) {s : Symbol} (hs : ∀ t, t ≠ s → c'.names t = []) :
    (c ++ c').Distinct ↔ (c.names s ++ c'.names s).Nodup := by
  refine ⟨fun hall => names_append c c' s ▸ hall s,fun hone t => ?_⟩
  rw [names_append]
  by_cases ht : t = s
  · exact ht ▸ hone
  · rw [hs t ht,List.append_nil]
    exact h t

def ofForm (n : Node) : Contents := ⟨.allOf true n,[],fun _ => []⟩

def ofDenotator (n : Node) : Contents := ⟨.empty,[.fresh n],fun _ => []⟩

def ofFaults (es : List ReadError) : Contents := ⟨⟨[],es⟩,[],fun _ => []⟩

def ofEntry (k : LeafKind) (e : String × Node) : Contents :=
  ⟨.empty,[],fun j => if j = k then [e] else []⟩

def ofLeaf (k : LeafKind) (n : Node) : Contents :=
  match Definitions.leafOf k.tag n with
  | ⟨none,es⟩ => ofFaults es
  | ⟨some e,_⟩ => ofEntry k e

def ofNode (n : Node) : Contents :=
  if n.isForm then ofForm n
  else if n.tag = "Denotator" then ofDenotator n
  else if n.tag = "DefineModule" then ofLeaf .module n
  else if n.tag = "DefineModuleElement" then ofLeaf .element n
  else if n.tag = "DefineModuleMorphism" then ofLeaf .morphism n
  else ofFaults [.malformed n.tag "unexpected top-level node"]

def ofNodes (ns : List Node) : Contents where
  forms := ⟨ns.flatMap fun n => (ofNode n).forms.sketches,
    ns.flatMap fun n => (ofNode n).forms.reports⟩
  sketches := ns.flatMap fun n => (ofNode n).sketches
  leaves k := ns.flatMap fun n => (ofNode n).leaves k

theorem ofNodes_append_single (ns : List Node) (n : Node) :
    ofNodes (ns ++ [n]) = ofNodes ns ++ ofNode n := by
  simp only [ofNodes,List.flatMap_append,List.flatMap_singleton]
  rfl

structure Collected (es : List ReadError) (c : Contents) (d : Definitions) : Prop where
  forms : d.forms = ⟨[],es⟩ ++ c.forms
  sketches : d.sketches = c.sketches
  taken : d.taken.Perm (DenotatorSketch.names c.sketches)
  leaves : ∀ k, d.leaves k = .ofList (c.leaves k)

/-- What collecting comes to: all contents, or a clash. -/
structure Collects (es : List ReadError) (c : Contents) (d : Definitions) : Prop where
  forms : d.forms.names.Nodup
  taken : d.taken.Nodup
  result : c.Distinct ∧ Collected es c d ∨ ¬ c.Distinct ∧ Clashes d.reports

theorem collects_empty (es : List ReadError) :
    Collects es (ofNodes []) (.reportAll .empty es) := by
  have hforms : FormSketches.mk [] es = ⟨[],es⟩ ++ .empty :=
    congrArg₂ _ rfl (List.append_nil es).symm
  refine ⟨.nil,.nil,.inl ⟨fun s => ?_,hforms,rfl,.nil,fun k => ?_⟩⟩
  · cases s <;> exact .nil
  · cases k <;> rfl

/-- A clash stays one, and what is collected so far is collected further. -/
theorem Collects.extend (h : Collects es c d) (hf : d'.forms.names.Nodup) (ht : d'.taken.Nodup)
    (hr : d.reports <+: d'.reports) (hs : c.Distinct → Collected es c d →
      (c ++ c').Distinct ∧ Collected es (c ++ c') d' ∨ ¬ (c ++ c').Distinct ∧ Clashes d'.reports) :
    Collects es (c ++ c') d' := by
  refine ⟨hf,ht,?_⟩
  rcases h.result with ⟨hd,hc⟩ | ⟨hd,hc⟩
  · exact hs hd hc
  · exact .inr ⟨fun hall => hd hall.left,hc.mono hr.subset⟩

theorem Collected.sketches_forms (h : Collected es c d) : d.forms.sketches = c.forms.sketches := by
  rw [h.forms]
  rfl

theorem Collected.names_forms (h : Collected es c d) : d.forms.names = c.forms.names :=
  congrArg (List.map FormSketch.name) h.sketches_forms

theorem Collected.reports (h : Collected es c d) : d.reports = es ++ c.forms.reports :=
  congrArg FormSketches.reports h.forms

theorem Collected.forms_reportAll (h : Collected es c d) (fs : List ReadError) :
    d.forms.reportAll fs = ⟨[],es⟩ ++ (c.forms ++ ⟨[],fs⟩) := by
  rw [← FormSketches.append_assoc,← h.forms,FormSketches.append_faults]

theorem Collects.addFaults (h : Collects es c d) (fs : List ReadError) :
    Collects es (c ++ ofFaults fs) (d.reportAll fs) := by
  refine h.extend h.forms h.taken (List.prefix_append _ _) fun hd hc => ?_
  refine .inl ⟨fun s => ?_,hc.forms_reportAll fs,?_,?_,fun k => ?_⟩
  · rw [names_append]
    cases s <;> exact (List.append_nil _).symm ▸ hd _
  · simp [Definitions.reportAll,ofFaults,hc.sketches]
  · simpa [Definitions.reportAll,ofFaults] using hc.taken
  · rw [leaves_append,ofFaults,List.append_nil,← hc.leaves k]
    cases k <;> rfl

theorem Collects.addForm (h : Collects es c d) (n : Node) :
    Collects es (c ++ ofForm n) {d with forms := d.forms.add true n} := by
  have hadd := FormSketches.adds_add true n h.forms
  refine h.extend hadd.nodup h.taken hadd.reports fun hd hc => ?_
  have hiff : (c ++ ofForm n).Distinct ↔ (c.names .form ++ (ofForm n).names .form).Nodup :=
    distinct_append_iff hd fun t ht => by cases t <;> first | rfl | exact absurd rfl ht
  have hnames : (d.forms ++ .allOf true n).names = c.names .form ++ (ofForm n).names .form := by
    rw [FormSketches.names_append,hc.names_forms]
    rfl
  rw [hiff,← hnames]
  refine hadd.result.imp_left fun ⟨hn,he⟩ => ⟨hn,?_,?_,?_,fun k => ?_⟩
  · rw [forms_append,← FormSketches.append_assoc,← hc.forms,he]
    rfl
  · simp [ofForm,hc.sketches]
  · simpa [ofForm] using hc.taken
  · rw [leaves_append,ofForm,List.append_nil,← hc.leaves k]
    cases k <;> rfl

theorem Collects.addDenotator (h : Collects es c d) (n : Node) :
    Collects es (c ++ ofDenotator n) (d.addDenotator n) := by
  have htakes := DenotatorSketch.takes_ofNode n h.taken
  generalize hs : DenotatorSketch.ofNode d.taken n = r at htakes
  obtain ⟨s,later⟩ := r
  have he : d.addDenotator n = {d with sketches := d.sketches ++ [s], taken := later}.reportAll
      (s.duplicates.map (.duplicateName .denotator)) := by
    simp only [Definitions.addDenotator,hs]
  rw [he]
  refine h.extend h.forms htakes.nodup (List.prefix_append _ _) fun hd hc => ?_
  have hiff : (c ++ ofDenotator n).Distinct ↔
      (c.names .denotator ++ (ofDenotator n).names .denotator).Nodup :=
    distinct_append_iff hd fun t ht => by cases t <;> first | rfl | exact absurd rfl ht
  have hp := hc.taken.append_right (DenotatorSketch.names [.fresh n])
  rw [hiff]
  refine htakes.result.imp (fun ⟨hn,hss,hlater,hdup⟩ => ⟨hp.nodup_iff.mp hn,?_⟩)
    fun ⟨hn,hdup⟩ => ⟨mt hp.nodup_iff.mpr hn,?_⟩
  · have hnone : s.duplicates = [] := by simpa [DenotatorSketch.allDuplicates] using hdup
    cases hss
    refine ⟨?_,?_,?_,fun k => ?_⟩
    · rw [hnone]
      exact hc.forms_reportAll []
    · simp [Definitions.reportAll,ofDenotator,hc.sketches]
    · rw [sketches_append,DenotatorSketch.names_append]
      exact hlater.trans hp
    · rw [leaves_append,ofDenotator,List.append_nil,← hc.leaves k]
      cases k <;> rfl
  · have hsome : s.duplicates ≠ [] := by simpa [DenotatorSketch.allDuplicates] using hdup
    obtain ⟨name,hname⟩ := List.exists_mem_of_ne_nil _ hsome
    exact ⟨.denotator,name,List.mem_append_right _ (List.mem_map_of_mem hname)⟩

theorem distinct_append_ofEntry_iff (h : c.Distinct) {k : LeafKind} {name : String} {node : Node} :
    (c ++ ofEntry k (name,node)).Distinct ↔ name ∉ (c.leaves k).map Prod.fst := by
  have hone : (ofEntry k (name,node)).leaves k = [(name,node)] := if_pos rfl
  have hnodup : ((c.leaves k).map Prod.fst).Nodup := names_symbol c k ▸ h k.symbol
  rw [distinct_append_iff (s := k.symbol) h fun t ht => ?_]
  · rw [names_symbol,names_symbol,hone,List.map_singleton,List.nodup_append_comm,
      List.singleton_append,List.nodup_cons,and_iff_left hnodup]
  · cases k <;> cases t <;> first | rfl | exact absurd rfl ht

theorem Collected.contains_iff (h : Collected es c d) {k : LeafKind} {name : String} :
    (d.leaves k).contains name ↔ name ∈ (c.leaves k).map Prod.fst := by
  rw [h.leaves,Table.contains_ofList]

theorem Collects.addEntry (h : Collects es c d) {k : LeafKind} {name : String} {node : Node}
    (hname : ¬ (d.leaves k).contains name) : Collects es (c ++ ofEntry k (name,node))
      (d.withLeaves k ((d.leaves k).insert name node)) := by
  have hreports : (d.withLeaves k ((d.leaves k).insert name node)).reports = d.reports :=
    congrArg FormSketches.reports (d.forms_withLeaves k _)
  refine h.extend (by simpa using h.forms) (by simpa using h.taken)
    (hreports ▸ List.prefix_rfl) fun hd hc => .inl ⟨?_,?_,?_,?_,fun j => ?_⟩
  · exact (distinct_append_ofEntry_iff hd).mpr (mt hc.contains_iff.mpr hname)
  · rw [Definitions.forms_withLeaves,← d.forms.reportAll_nil]
    exact hc.forms_reportAll []
  · simp [ofEntry,hc.sketches]
  · simpa [ofEntry] using hc.taken
  · rw [Definitions.leaves_withLeaves,leaves_append,ofEntry,hc.leaves,hc.leaves]
    split <;> rename_i hj
    · simp [hj,Table.ofList]
    · simp [hj]

theorem Collects.addLeaf (h : Collects es c d) (k : LeafKind) (n : Node) :
    let r := Definitions.addLeaf k.symbol k.tag n (d.leaves k)
    Collects es (c ++ ofLeaf k n) ((d.withLeaves k r.1).reportAll r.2) := by
  unfold ofLeaf Definitions.addLeaf
  obtain ⟨e,faults⟩ := Definitions.leafOf k.tag n
  cases e with
  | none =>
    dsimp only
    rw [Definitions.withLeaves_leaves]
    exact h.addFaults faults
  | some e =>
    obtain ⟨name,node⟩ := e
    dsimp only
    split <;> rename_i hname
    · rw [Definitions.withLeaves_leaves]
      refine h.extend h.forms h.taken (List.prefix_append _ _) fun hd hc => .inr ⟨?_,?_⟩
      · exact mt (distinct_append_ofEntry_iff hd).mp (not_not.mpr (hc.contains_iff.mp hname))
      · exact ⟨k.symbol,name,List.mem_append_right _ List.mem_cons_self⟩
    · have hnone (d : Definitions) : d.reportAll [] = d :=
        congrArg (fun fs => {d with forms := fs}) d.forms.reportAll_nil
      rw [hnone]
      exact h.addEntry hname

/-- Step lemma: a node adds all that it holds, or clashes. -/
theorem Collects.add (h : Collects es c d) (n : Node) : Collects es (c ++ ofNode n) (d.add n) := by
  unfold Definitions.add ofNode
  split_ifs
  · exact h.addForm n
  · exact h.addDenotator n
  · exact h.addLeaf .module n
  · exact h.addLeaf .element n
  · exact h.addLeaf .morphism n
  · exact h.addFaults _

theorem collects_foldl (es : List ReadError) (ns : List Node) :
    Collects es (ofNodes ns) (ns.foldl Definitions.add (.reportAll .empty es)) := by
  induction ns using List.reverseRecOn with
  | nil => exact collects_empty es
  | append_singleton ns n ih =>
    rw [List.foldl_append,ofNodes_append_single]
    exact ih.add n

theorem names_perm {ns ms : List Node} (h : ns.Perm ms) (s : Symbol) :
    ((ofNodes ns).names s).Perm ((ofNodes ms).names s) := by
  cases s with
  | form => exact (h.flatMap_right _).map _
  | denotator =>
    simp only [names,DenotatorSketch.names,DenotatorSketch.allDefinitions_eq]
    exact ((h.flatMap_right _).flatMap_right _).map _
  | module | element | morphism => exact (h.flatMap_right _).map _

theorem Distinct.perm {ns ms : List Node} (h : (ofNodes ns).Distinct) (hp : ns.Perm ms) :
    (ofNodes ms).Distinct := fun s => (names_perm hp s).nodup_iff.mp (h s)

end Contents

namespace Definitions

def sources (root : Node) : List Node := if root.tag = "Document" then root.children else []

theorem sources_perm {root : Node} {children : List Node} (hp : children.Perm root.children) :
    (sources root).Perm (sources (root.withChildren children)) := by
  have htag : (root.withChildren children).tag = root.tag := rfl
  unfold sources
  rw [htag]
  split
  · exact hp.symm
  · exact .nil

def rootFaults (root : Node) : List ReadError :=
  if root.tag = "Document" then versionFaults root
  else [.malformed root.tag "expected a Document root"]

theorem ofRoot_eq (root : Node) :
    ofRoot root = (sources root).foldl add (empty.reportAll (rootFaults root)) := by
  unfold ofRoot sources rootFaults
  split <;> rfl

theorem collects_ofRoot (root : Node) :
    Contents.Collects (rootFaults root) (.ofNodes (sources root)) (ofRoot root) :=
  ofRoot_eq root ▸ Contents.collects_foldl (rootFaults root) (sources root)

/-- What two orders of the same nodes come to, if no name clashes in the first one. -/
structure Reordered (d d' : Definitions) : Prop where
  forms : d.forms.sketches.Perm d'.forms.sketches
  names : d.forms.names.Nodup
  denotators : d.denotators = d'.denotators
  leaves : ∀ k, d.leaves k = d'.leaves k
  reports : d.reports.Perm d'.reports

/-- Definitions are collected from a document whatever the order of its nodes. -/
theorem reordered_ofRoot {root : Node} {children : List Node} (hp : children.Perm root.children)
    (hn : ¬ Clashes (ofRoot root).reports) :
    let root' := root.withChildren children
    Contents.Collected (rootFaults root) (.ofNodes (sources root)) (ofRoot root) ∧
    Contents.Collected (rootFaults root) (.ofNodes (sources root')) (ofRoot root') ∧
    Reordered (ofRoot root) (ofRoot root') := by
  intro root'
  have hsources : (sources root).Perm (sources root') := sources_perm hp
  obtain ⟨hd,hc⟩ := (collects_ofRoot root).result.resolve_right fun h => hn h.2
  have hd' := hd.perm hsources
  obtain ⟨-,hc'⟩ := (collects_ofRoot root').result.resolve_right fun h => h.1 hd'
  refine ⟨hc,hc',?_,?_,?_,fun k => ?_,?_⟩
  · rw [hc.sketches_forms,hc'.sketches_forms]
    exact hsources.flatMap_right _
  · exact hc.names_forms ▸ hd .form
  · rw [denotators,denotators,hc.sketches,hc'.sketches]
    refine Table.ofList_eq_of_perm (hd .denotator) ?_
    rw [DenotatorSketch.allDefinitions_eq,DenotatorSketch.allDefinitions_eq]
    exact (hsources.flatMap_right _).flatMap_right _
  · rw [hc.leaves,hc'.leaves]
    exact Table.ofList_eq_of_perm (Contents.names_symbol _ k ▸ hd k.symbol)
      (hsources.flatMap_right _)
  · rw [hc.reports,hc'.reports]
    exact (hsources.flatMap_right _).append_left _

end Definitions
end AddressedForms
