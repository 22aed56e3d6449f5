import AddressedForms.Denotator.Fingerprint
import AddressedForms.Form.Outline
import AddressedForms.Proofs.Form.Reachable
set_option autoImplicit false

/-!
What no operation takes back: names and kinds of issued forms, bodies of defined ones, and the
holders of registered names. Comparison and fingerprints of forms depend on nothing else.
-/

namespace AddressedForms
namespace FormGraph
variable {g h k : FormGraph} {id : FormId} {f : Form}

structure Grows (g h : FormGraph) : Prop where
  name : ∀ id n, g.name? id = some n → h.name? id = some n
  kind : ∀ id k, g.kind? id = some k → h.kind? id = some k
  body : ∀ id f, g.get? id = some f → ∃ e, h.get? id = some e ∧ e.body = f.body
  held : ∀ n id, g.lookup? n = some id → h.lookup? n = some id

theorem Grows.refl (g : FormGraph) : g.Grows g :=
  ⟨fun _ _ => id,fun _ _ => id,fun _ f hf => ⟨f,hf,rfl⟩,fun _ _ => id⟩

theorem Grows.trans (hgh : g.Grows h) (hhk : h.Grows k) : g.Grows k where
  name id n hn := hhk.name id n (hgh.name id n hn)
  kind id c hc := hhk.kind id c (hgh.kind id c hc)
  body id f hf := by
    obtain ⟨e,he,heb⟩ := hgh.body id f hf
    obtain ⟨d,hd,hdb⟩ := hhk.body id e he
    exact ⟨d,hd,hdb.trans heb⟩
  held n id hl := hhk.held n id (hgh.held n id hl)

theorem Grows.keeps (hg : g.Grows h) : g.Keeps h := by
  intro id f hf
  obtain ⟨e,he,hb⟩ := hg.body id f hf
  have hn := hg.name id f.name (name?_of_get? hf)
  rw [name?_of_get? he,Option.some.injEq] at hn
  exact ⟨e,he,hn,hb⟩

theorem contains_iff_name? : g.contains id ↔ ∃ n, g.name? id = some n := by
  have := slot?_eq_none_iff g id
  cases hs : g.slot? id <;> simp_all [name?]

theorem Grows.contains (hg : g.Grows h) (hc : g.contains id) : h.contains id := by
  obtain ⟨n,hn⟩ := contains_iff_name?.mp hc
  exact contains_iff_name?.mpr ⟨n,hg.name id n hn⟩

theorem grows_declare (g : FormGraph) (name : String) (kind : Kind) :
    g.Grows (g.declare name kind).2 := by
  have hslot {id : FormId} {s : Slot} (hs : g.slot? id = some s) :
      (g.declare name kind).2.slot? id = some s := by
    have hlt : id.index < g.size := of_decide_eq_true (contains_of_slot? hs)
    rw [slot?_declare,if_neg (by omega),hs]
  refine ⟨fun id n hn => ?_,fun id c hc => ?_,fun id f hf => ⟨f,?_,rfl⟩,fun n id hl => hl⟩
  · obtain ⟨s,hs,hn⟩ := Option.map_eq_some_iff.mp hn
    simp [name?,hslot hs,hn]
  · obtain ⟨s,hs,hc⟩ := Option.map_eq_some_iff.mp hc
    simp [kind?,hslot hs,hc]
  · rw [get?_declare,hf]

/-- A form may be stored over a declaration of its name and kind, or over one of its body too. -/
theorem grows_store {s : Slot} (hs : g.slot? id = some s) (hn : f.name = s.name)
    (hk : f.kind = s.kind) (hb : ∀ e, g.get? id = some e → f.body = e.body) :
    g.Grows (g.store id f) := by
  have hc := contains_of_slot? hs
  refine ⟨fun j n hj => ?_,fun j c hj => ?_,fun j e he => ?_,fun n j hl => hl⟩
  · rw [name?,slot?_store hc]
    split <;> rename_i hji
    · simpa [name?,hji,hs,Slot.name,hn] using hj
    · exact hj
  · rw [kind?,slot?_store hc]
    split <;> rename_i hji
    · simpa [kind?,hji,hs,Slot.kind,hk] using hj
    · exact hj
  · rw [get?_store hc]
    split <;> rename_i hji
    · exact ⟨f,rfl,hb e (hji ▸ he)⟩
    · exact ⟨e,he,rfl⟩

theorem Grows.define {body : Body} {labels : Option (List String)}
    (hd : g.define id body labels = .ok h) : g.Grows h := by
  obtain ⟨name,ls,hs,-,-,-,rfl⟩ := define_eq_ok_iff.mp hd
  refine grows_store hs rfl rfl fun e he => ?_
  rw [get?_eq_some_iff,hs] at he
  cases he

theorem Grows.register {held : FormId} (hr : g.register id = .ok (held,h)) : g.Grows h := by
  obtain ⟨f,hf,⟨-,-,rfl⟩ | ⟨hfree,-,rfl⟩⟩ := register_eq_ok_iff.mp hr
  · exact .refl _
  · have hstore := grows_store (f := {f with registered := true}) (get?_eq_some_iff.mp hf) rfl rfl
      fun e he => by rw [hf] at he; cases he; rfl
    refine ⟨hstore.name,hstore.kind,hstore.body,fun n id hl => ?_⟩
    rw [lookup?_enter,if_neg,hl]
    rintro rfl
    rw [hfree] at hl
    cases hl

theorem grows_relabel (g : FormGraph) (id : FormId) (l : Labels) : g.Grows (g.relabel id l) := by
  unfold relabel
  split <;> rename_i hf
  · exact grows_store (get?_eq_some_iff.mp hf) rfl rfl fun e he => by rw [hf] at he; cases he; rfl
  · exact .refl g

theorem Grows.registerLabelled {held : FormId} {labels : List String}
    (hr : g.registerLabelled id labels = .ok (held,h)) : g.Grows h := by
  obtain ⟨f,hf,hr⟩ := Except.bind_eq_ok_iff.mp hr
  obtain ⟨l,hl,hr⟩ := Except.bind_eq_ok_iff.mp hr
  obtain ⟨⟨held',k⟩,hg,hr⟩ := Except.bind_eq_ok_iff.mp hr
  obtain ⟨rfl,rfl⟩ := Prod.mk.inj (Except.ok.inj hr)
  exact (Grows.register hg).trans (grows_relabel k held' l)

structure Follows (g h : FormGraph) : Prop where
  reachable : g.Reachable → h.Reachable
  grows : g.Grows h

theorem Follows.refl (g : FormGraph) : g.Follows g := ⟨id,.refl g⟩

theorem Follows.trans (hgh : g.Follows h) (hhk : h.Follows k) : g.Follows k :=
  ⟨fun hg => hhk.reachable (hgh.reachable hg),hgh.grows.trans hhk.grows⟩

theorem follows_declare (g : FormGraph) (name : String) (kind : Kind) :
    g.Follows (g.declare name kind).2 := ⟨fun hg => hg.declare name kind,grows_declare g name kind⟩

theorem Follows.define {body : Body} {labels : Option (List String)}
    (hd : g.define id body labels = .ok h) : g.Follows h :=
  ⟨fun hg => hg.define hd,.define hd⟩

theorem Follows.register {held : FormId} (hr : g.register id = .ok (held,h)) : g.Follows h :=
  ⟨fun hg => hg.register hr,.register hr⟩

theorem Follows.registerLabelled {held : FormId} {labels : List String}
    (hr : g.registerLabelled id labels = .ok (held,h)) : g.Follows h :=
  ⟨fun hg => hg.registerLabelled hr,.registerLabelled hr⟩

theorem follows_add (g : FormGraph) (name : String) (body : Body) :
    g.Follows (g.add name body).2 := by
  unfold FormGraph.add
  dsimp only
  split <;> rename_i hd
  · exact (follows_declare g name body.kind).trans (.define hd)
  · exact follows_declare g name body.kind

theorem Follows.outlineDefine {o : Outline} (hd : o.define g id = .ok h) : g.Follows h := by
  obtain ⟨body,-,hd⟩ := Except.bind_eq_ok_iff.mp hd
  obtain ⟨labels,-,hd⟩ := Except.bind_eq_ok_iff.mp hd
  exact .define hd

theorem follows_build (g : FormGraph) (o : Outline) : g.Follows (o.build g).2 := by
  unfold Outline.build
  dsimp only
  split <;> rename_i hd
  · exact (follows_declare g o.name o.kind).trans (.outlineDefine hd)
  · exact follows_declare g o.name o.kind

/-- A fingerprint reads names of issued forms only, so it is there to stay. -/
theorem Grows.fingerprint?_eq (hg : g.Sound) (hgh : g.Grows h) {hash : List UInt8 → Digest}
    {w : Digest} (hw : g.fingerprint? hash id = some w) : h.fingerprint? hash id = some w := by
  obtain ⟨f,hf,rfl⟩ := Option.map_eq_some_iff.mp hw
  obtain ⟨e,he,hname,hbody⟩ := hgh.keeps id f hf
  have hsub : ∀ sub ∈ f.subForms, h.name? sub = g.name? sub := by
    intro sub hs
    obtain ⟨n,hn⟩ := contains_iff_name?.mp (hg.issued id f hf sub hs)
    rw [hn,hgh.name sub n hn]
  have hnames : f.subForms.flatMap (fun sub => Canonical.text ((h.name? sub).getD "")) =
      f.subForms.flatMap (fun sub => Canonical.text ((g.name? sub).getD "")) :=
    List.flatMap_congr fun sub hs => by rw [hsub sub hs]
  have hbytes : h.bodyBytes f.body = g.bodyBytes f.body := by
    unfold bodyBytes
    split
    · rfl
    · exact congrArg (Canonical.count _ ++ ·) hnames
  have hform : h.formBytes e = g.formBytes f := by
    rw [formBytes,formBytes,hname,hbody,hbytes,Form.kind,Form.kind,hbody]
  simp [fingerprint?,he,hform]

end FormGraph

theorem Labels.indexOf?_eq_some_iff (l : Labels) {name : String} {i : Nat} :
    l.indexOf? name = some i ↔ l.at? i = some name := by
  have hd := l.distinct
  rw [indexOf?,at?,List.findIdx?_eq_some_iff_getElem,List.getElem?_eq_some_iff]
  constructor
  · rintro ⟨hi,hn,-⟩
    exact ⟨hi,of_decide_eq_true hn⟩
  · rintro ⟨hi,rfl⟩
    refine ⟨hi,by simp,fun j hj => ?_⟩
    simp only [decide_eq_true_eq]
    intro he
    have := hd.getElem_inj_iff.mp he
    omega

theorem Labels.isSome_at?_iff (l : Labels) {i : Nat} : (l.at? i).isSome ↔ i < l.names.length := by
  simp [at?]

end AddressedForms
