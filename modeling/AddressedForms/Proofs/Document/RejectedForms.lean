import AddressedForms.Proofs.Document.SurvivingForms
set_option autoImplicit false

/-!
Forms that are defined inside others, where their definition is not taken up. Such a definition
leaves no sketch, but its name, if it has one, is still the name of a part. So it counts as a
reference to whatever else has that name.
-/

namespace AddressedForms

/-- A definition of a form that is not taken up, whatever was defined before. -/
structure Node.IsRejected (n : Node) : Prop where
  form : n.isForm
  reference : n.reference? = none
  header : (FormSketch.header n).value? = none

namespace FormSketches
variable {s : FormSketches} {l : LeafScope} {c : Catalogue}

theorem add_of_isRejected {n : Node} (h : n.IsRejected) (top : Bool) (s : FormSketches) :
    s.add top n = s.reportAll (FormSketch.header n).reports := by
  obtain ⟨tag,attrs,children⟩ := n
  have href : attrs.get? "ref" = none := h.reference
  have hheader := h.header
  rw [add,href]
  revert hheader
  generalize FormSketch.header ⟨tag,attrs,children⟩ = e
  obtain ⟨v,es⟩ := e
  rintro ⟨⟩
  rfl

theorem mem_planned_iff (hg : IsGreatest
      {S | s.Sustained l (fun name => (c.forms.get? name).isSome) S} (s.planned l c))
    {f : FormSketch} (hf : f ∈ s.sketches) (hk : f.kind ≠ .simple) :
    f ∈ s.planned l c ↔ f.sound ∧ ∀ name ∈ f.parts,
      (∃ e ∈ s.planned l c, e.name = name) ∨ name ∉ s.names ∧ (c.forms.get? name).isSome := by
  refine ⟨fun h => ⟨hg.1.sound f h,hg.1.parts f h⟩,fun ⟨hsound,hparts⟩ => ?_⟩
  refine hg.2 (show s.Sustained l _ (insert f (s.planned l c)) from ?_) (Set.mem_insert f _)
  constructor <;> rintro e (rfl | he)
  · exact hf
  · exact hg.1.sketched e he
  · exact hsound
  · exact hg.1.sound e he
  · exact fun h => absurd h hk
  · exact hg.1.module e he
  · exact fun name hname => (hparts name hname).imp_left fun ⟨d,hd,hn⟩ => ⟨d,.inr hd,hn⟩
  · exact fun name hname => (hg.1.parts e he name hname).imp_left
      fun ⟨d,hd,hn⟩ => ⟨d,.inr hd,hn⟩

end FormSketches

theorem FormSketch.exists_name_of_sound {top : Bool} {n c : Node} {name : String} {kind : Kind}
    (h : (ofNode top n name kind).sound) (hk : kind ≠ .simple) (hc : c ∈ n.children)
    (hform : c.isForm) (href : c.reference? = none) :
    ∃ k, c.name? = some k ∧ k ∈ (ofNode top n name kind).parts := by
  have hpart : partName? c ∈ partNames n kind := by
    rw [partNames,if_neg hk]
    exact List.mem_map_of_mem (List.mem_filter.mpr ⟨hc,hform⟩)
  have hname : partName? c = c.name? := by rw [partName?,href]
  have hsome : (partName? c).isSome :=
    List.all_eq_true.mp (Bool.and_eq_true_iff.mp h).2 _ hpart
  obtain ⟨k,hk⟩ := Option.isSome_iff_exists.mp hsome
  exact ⟨k,hname ▸ hk,List.mem_filterMap.mpr ⟨_,hpart,hk⟩⟩

namespace Reader
variable {r : Repository} (a : Reader) (root : Node)

def StandsIn (r : Repository) (name : String) : Prop :=
  (∃ id, (name,id) ∈ (a.readNode root r).1.symbols.forms) ∨
  name ∉ (Definitions.ofRoot root).forms.names ∧ a.settings.catalogFallback ∧
    (r.form? name).isSome

variable (hr : r.Reachable) {f : FormSketch}
include hr

theorem exists_planned_iff {name : String} :
    (∃ e ∈ (Definitions.ofRoot root).forms.planned ((Definitions.ofRoot root).scope a.vocabulary)
      (.ofRepository r a.settings.catalogFallback), e.name = name) ↔
    ∃ id, (name,id) ∈ (a.readNode root r).1.symbols.forms := by
  rw [a.exists_symbol_iff root hr]
  constructor
  · rintro ⟨e,⟨-,hp⟩,rfl⟩
    exact hp
  · rintro ⟨p,hp,rfl⟩
    obtain ⟨e,he,hep⟩ := FormPlan.mem_ofSketches hp
    obtain ⟨-,m,parts,-,-,rfl⟩ := FormPlan.ofSketch_eq_some hep
    exact ⟨e,⟨he,_,hp,rfl⟩,rfl⟩

theorem exists_symbol_iff_stands (hf : f ∈ (Definitions.ofRoot root).forms.sketches)
    (hk : f.kind ≠ .simple) : (∃ id, (f.name,id) ∈ (a.readNode root r).1.symbols.forms) ↔
      f.sound ∧ ∀ name ∈ f.parts, a.StandsIn root r name := by
  have hn : (Definitions.ofRoot root).forms.names.Nodup := (Definitions.collects_ofRoot root).forms
  have hg := (Definitions.drawn_ofRoot root).isGreatest_planned hn
    (l := (Definitions.ofRoot root).scope a.vocabulary)
    (c := .ofRepository r a.settings.catalogFallback)
  have hplanned := FormSketches.mem_planned_iff hg hf hk
  simp only [a.exists_planned_iff root hr,Catalogue.isSome_form?_iff] at hplanned
  refine Iff.trans ?_ hplanned
  rw [← a.exists_planned_iff root hr]
  constructor
  · rintro ⟨e,he,hname⟩
    exact FormSketches.eq_of_name_eq hn he.1 hf hname ▸ he
  · exact fun h => ⟨f,h,rfl⟩

theorem exists_mem_top_iff (hf : f ∈ (Definitions.ofRoot root).forms.sketches) :
    (∃ id ∈ (a.readNode root r).1.forms, ∃ x,
      (a.readNode root r).2.2.forms.get? id = some x ∧ x.name = f.name) ↔
    f.top ∧ ∃ id, (f.name,id) ∈ (a.readNode root r).1.symbols.forms := by
  let d := Definitions.ofRoot root
  let c := Catalogue.ofRepository r a.settings.catalogFallback
  have hn : d.forms.names.Nodup := (Definitions.collects_ofRoot root).forms
  have htop (id : FormId) : id ∈ (a.readNode root r).1.forms ↔
      ∃ e ∈ d.forms.sketches, e.top ∧ (e.name,id) ∈ (a.readNode root r).1.symbols.forms := by
    have hforms : (a.readNode root r).1.forms =
        (d.built a.vocabulary c r.forms).top.map Prod.snd := by
      rw [(a.readNode_fields root r).1,Reading.ofNode_eq]
    rw [hforms,Definitions.top_built]
    simp only [List.mem_map,List.mem_filterMap,BuiltForms.topOf?_eq_some,a.mem_symbols root r]
    constructor
    · rintro ⟨⟨name,id⟩,⟨e,he,ht,rfl,hid⟩,rfl⟩
      exact ⟨e,he,ht,hid⟩
    · rintro ⟨e,he,ht,hid⟩
      exact ⟨(e.name,id),⟨e,he,ht,rfl,hid⟩,rfl⟩
  constructor
  · rintro ⟨id,hid,x,hx,hname⟩
    obtain ⟨e,he,htop,hmem⟩ := (htop id).mp hid
    obtain ⟨y,hy,hyname⟩ := a.get?_of_symbol root hr hmem
    obtain rfl : e = f := FormSketches.eq_of_name_eq hn he hf <| by
      rw [← hname,← hyname,Option.some.inj (hy.symm.trans hx)]
    exact ⟨htop,id,hmem⟩
  · rintro ⟨ht,id,hmem⟩
    exact ⟨id,(htop id).mpr ⟨f,hf,ht,hmem⟩,a.get?_of_symbol root hr hmem⟩

end Reader

/-- A form with parts is built exactly if its definition has no faults and the names of all parts
stand for forms; and it is in the outcome if it stands at the top level besides. A definition inside
it that is rejected is reported and adds nothing, but its name stays a part: the form is built only
if there is a name, and if that stands for a form that is defined elsewhere. -/
theorem Reader.readNode_rejected {r : Repository} (hr : r.Reachable) (a : Reader) (root : Node)
    {top : Bool} {n : Node} {name : String} {kind : Kind}
    (hf : FormSketch.ofNode top n name kind ∈ (Definitions.ofRoot root).forms.sketches)
    (hk : kind ≠ .simple) :
    let f := FormSketch.ofNode top n name kind
    let o := (a.readNode root r).1
    let s := (a.readNode root r).2.2
    let built := ∃ id, (name,id) ∈ o.symbols.forms
    (built ↔ f.sound ∧ ∀ k ∈ f.parts, a.StandsIn root r k) ∧
    ((∃ id ∈ o.forms, ∃ x, s.forms.get? id = some x ∧ x.name = name) ↔ top ∧ built) ∧
    ∀ c ∈ n.children, c.IsRejected →
      (∀ d, FormSketches.add false c d = d.reportAll (FormSketch.header c).reports) ∧
      (built → ∃ k ∈ f.parts, c.name? = some k ∧ a.StandsIn root r k) := by
  intro f o s built
  have hbuilt : built ↔ f.sound ∧ ∀ k ∈ f.parts, a.StandsIn root r k :=
    a.exists_symbol_iff_stands root hr hf hk
  refine ⟨hbuilt,a.exists_mem_top_iff root hr hf,fun c hc hrejected => ⟨fun d =>
    FormSketches.add_of_isRejected hrejected false d,fun h => ?_⟩⟩
  obtain ⟨hsound,hparts⟩ := hbuilt.mp h
  obtain ⟨k,hname,hmem⟩ :=
    FormSketch.exists_name_of_sound hsound hk hc hrejected.form hrejected.reference
  exact ⟨k,hmem,hname,hparts k hmem⟩

def Node.clusters : Node :=
  (leaf "Document").withChildren
    [(((leaf "Form").withAttr "name" "Cluster").withAttr "type" "Power").withChildren
      [((leaf "Form").withAttr "name" "Pitch").withAttr "type" "Bogus"]]

/-- With pitches in the catalogue clusters are built, although what they contain is rejected;
without them they are not. -/
theorem Reader.readNode_clusters :
    let cluster := Node.clusters.children.head!
    let pitch := cluster.children.head!
    let o := (default.readNode .clusters .pitches).1
    pitch.IsRejected ∧ o.errors.kept = [.unknownTypeTag .form "Bogus"] ∧
    o.symbols.forms = [("Cluster",⟨1⟩)] ∧ o.forms = [⟨1⟩] ∧
    default.StandsIn .clusters .pitches "Pitch" ∧
    (default.readNode .clusters .empty).1.symbols.forms = [] := by
  intro cluster pitch o
  have hf : FormSketch.ofNode true cluster "Cluster" .power ∈
      (Definitions.ofRoot .clusters).forms.sketches := List.mem_singleton_self _
  have hpitch : pitch ∈ cluster.children := List.mem_singleton_self _
  have hrejected : pitch.IsRejected := ⟨by decide,by cbv,by cbv⟩
  have hname : pitch.name? = some "Pitch" := by cbv
  have hforms : o.symbols.forms = [("Cluster",⟨1⟩)] := by cbv
  refine ⟨hrejected,by cbv,hforms,by cbv,?_,?_⟩
  · obtain ⟨-,-,hparts⟩ :=
      readNode_rejected (r := .pitches) ⟨_,rfl⟩ default .clusters hf (by decide)
    obtain ⟨k,-,hk,hstands⟩ := (hparts pitch hpitch hrejected).2
      ⟨⟨1⟩,hforms ▸ List.mem_singleton_self _⟩
    obtain rfl : "Pitch" = k := Option.some.inj (hname.symm.trans hk)
    exact hstands
  · cbv

end AddressedForms
