/-
# Decoders that read whole objects and do not panic

What the decoders of values have in common, whatever they make of the values.

* `Decode.Whole`: a decoder that succeeds has read its object to the end, as if the object had
  been dropped; it never moves backwards (`Decode.Whole.forward`);
* `Decode.Calm`: a decoder of objects that were opened does not panic.  The only place for a
  panic is the value that `next_pair` unwraps, and where a key is due, the structure checker lets
  nothing end between the key and its value (`Decoder.nextPair_calm`);
* both pass through fields, lists and dictionaries.
-/
import Dorodoro.BencodeGrammar
import Dorodoro.Torrent

namespace Bendy

variable {σ T : Type}

/-! ## Panics -/

/-- The computation panics. -/
def Panics (x : Except Error T) : Prop := ∃ e message, x = .error e ∧ e.error = .panicked message

@[simp] theorem not_panics_ok (a : T) : ¬ Panics (.ok a) := by
  rintro ⟨e, message, he, -⟩
  cases he

@[simp] theorem panics_error (e : Error) :
    Panics (.error e : Except Error T) ↔ ∃ message, e.error = .panicked message := by
  constructor
  · rintro ⟨e', message, he, hm⟩
    obtain rfl := Except.error.inj he
    exact ⟨message, hm⟩
  · rintro ⟨message, hm⟩
    exact ⟨e, message, rfl, hm⟩

/-- An error that is handed on is no panic if it was none where it arose. -/
theorem not_panics_of_eq_error {S : Type} {x : Except Error S} {e : Error} (hx : ¬ Panics x)
    (he : x = .error e) : ¬ Panics (.error e : Except Error T) := by
  rw [he, panics_error] at hx
  rwa [panics_error]

@[simp] theorem panics_ofStructure (e : StructureError) :
    ¬ Panics (.error (.ofStructure e) : Except Error T) := by
  simp [Error.ofStructure, Error.ofKind]

/-- A function after a computation does not change whether it panics. -/
theorem panics_map {S : Type} {x : Except Error T} {f : T → S} :
    Panics (x.map f) ↔ Panics x := by
  cases x with
  | error e => simp [Except.map]
  | ok a => simp [Except.map]

/-- A sequence panics in its first part or in its second. -/
theorem panics_bind {S : Type} {x : Except Error T} {f : T → Except Error S} :
    Panics (x.bind f) ↔ Panics x ∨ ∃ a, x = .ok a ∧ Panics (f a) := by
  cases x with
  | error e => simp [Except.bind]
  | ok a => simp [Except.bind]

/-- The context of an error does not make it a panic. -/
theorem panics_context {name : String} {x : Except Error T} :
    Panics (context name x) ↔ Panics x := by
  cases x with
  | ok a => simp [context]
  | error e =>
      have hkind : (e.addContext name).error = e.error := by
        unfold Error.addContext
        split
        · rfl
        · rfl
      simp [context, hkind]

/-! ## Objects -/

/-- The next object is no panic. -/
theorem Decoder.nextObject_calm (d : Decoder) : ¬ Panics d.nextObject := by
  unfold nextObject
  split
  · exact panics_ofStructure _
  · exact not_panics_ok _

/-- Nothing ends where a value is due. -/
theorem Decoder.nextObject_ne_none {d d' : Decoder} {label : Bytes} {stack : List State}
    (hd : d.state = .mapValue label :: stack) : d.nextObject ≠ .ok (none, d') := by
  intro h
  unfold nextObject at h
  split at h
  · cases h
  · next tok d₁ htok =>
      obtain ⟨hnone, rfl⟩ := Prod.mk.inj (Except.ok.inj h)
      cases tok with
      | none =>
          unfold nextToken at htok
          split at htok
          · simp [hd] at htok
          · split at htok
            · cases htok
            · split at htok <;> simp at htok
      | some tok =>
          cases tok with
          | finish =>
              obtain ⟨raw, -, -, hstate⟩ := nextToken_spells htok
              rw [hd] at hstate
              cases hstate
          | list => cases hnone
          | dict => cases hnone
          | string s => cases hnone
          | num s => cases hnone

/-- **The value behind a key** is there, in a dictionary in which a key is due. -/
theorem Decoder.nextPair_calm {d : Decoder} (hd : KeyDue d.state) : ¬ Panics d.nextPair := by
  obtain ⟨last, stack, hd⟩ := hd
  unfold nextPair
  split
  · next e hobj => exact not_panics_of_eq_error d.nextObject_calm hobj
  · next key d₁ hobj =>
      split
      · next e hobj' => exact not_panics_of_eq_error d₁.nextObject_calm hobj'
      · exact not_panics_ok _
      · next d₂ hobj' =>
          obtain ⟨raw, stack', -, hopened, hstack⟩ := nextObject_opened hobj
          rcases hstack with ⟨hdue, -⟩ | ⟨last', rest, s, -, -, rfl⟩
          · exact absurd ⟨last, stack, hd⟩ hdue
          · exact absurd hobj' (nextObject_ne_none hopened.2)
  · exact not_panics_ok _

/-! ## Decoders -/

/-- A decoder that succeeds has read its object to the end. -/
def Decode.Whole (decode : Decode T) : Prop :=
  ∀ ⦃o d a d'⦄, decode o d = .ok (a, d') → d.offset ≤ d.source.length → dropObject o d = .ok d'

/-- A decoder does not panic on an object that was opened. -/
def Decode.Calm (decode : Decode T) : Prop :=
  ∀ ⦃o d raw stack⦄, o.Opened raw stack d → ¬ Panics (decode o d)

/-- Skipping an object only reads on. -/
theorem dropObject_reads {o : Object} {d d' : Decoder} (h : dropObject o d = .ok d')
    (hd : d.offset ≤ d.source.length) : d.Reads 0 d' :=
  (dropObjectN_reads o d (Nat.lt_succ_self _) hd).2 d' h

/-- A decoder that reads its object to the end moves forward. -/
theorem Decode.Whole.forward {decode : Decode T} (h : decode.Whole) : decode.Forward := by
  intro o d a d' hdec hd
  exact dropObject_reads (h hdec hd) hd

/-- The levels behind an object that was read to its end. -/
theorem Decode.Whole.state {decode : Decode T} (h : decode.Whole) {o : Object} {d d' : Decoder}
    {a : T} {raw : Bytes} {stack : List State} (hopened : o.Opened raw stack d)
    (hdec : decode o d = .ok (a, d')) (hd : d.offset ≤ d.source.length) : d'.state = stack := by
  obtain ⟨-, -, -, hstate⟩ := hopened.value (closed_of_dropObjectN (h hdec hd))
  exact hstate

/-! ## Base types -/

theorem dropObject_integer (s : Bytes) (d : Decoder) : dropObject (.integer s) d = .ok d := rfl

theorem dropObject_bytes (s : Bytes) (d : Decoder) : dropObject (.bytes s) d = .ok d := rfl

theorem decodeBytes_whole : decodeBytes.Whole := by
  intro o d a d' h _
  cases o with
  | bytes s =>
      obtain ⟨-, rfl⟩ := Prod.mk.inj (Except.ok.inj h)
      exact dropObject_bytes s d
  | list start => cases h
  | dict start => cases h
  | integer s => cases h

theorem decodeBytes_calm : decodeBytes.Calm := by
  intro o d raw stack _
  cases o <;> simp [decodeBytes, Error.ofKind]

theorem decodeString_whole : decodeString.Whole := by
  intro o d a d' h _
  cases o with
  | bytes s =>
      simp only [decodeString] at h
      split at h
      · obtain ⟨-, rfl⟩ := Prod.mk.inj (Except.ok.inj h)
        exact dropObject_bytes s d
      · cases h
  | list start => cases h
  | dict start => cases h
  | integer s => cases h

theorem decodeString_calm : decodeString.Calm := by
  intro o d raw stack _
  cases o with
  | bytes s =>
      simp only [decodeString]
      split <;> simp [Error.ofKind]
  | list start => simp [decodeString, Error.ofKind]
  | dict start => simp [decodeString, Error.ofKind]
  | integer s => simp [decodeString, Error.ofKind]

theorem decodeUnsigned_whole (bits : ℕ) : (decodeUnsigned bits).Whole := by
  intro o d a d' h _
  cases o with
  | integer s =>
      simp only [decodeUnsigned] at h
      split at h
      · obtain ⟨-, rfl⟩ := Prod.mk.inj (Except.ok.inj h)
        exact dropObject_integer s d
      · cases h
  | list start => cases h
  | dict start => cases h
  | bytes s => cases h

theorem decodeUnsigned_calm (bits : ℕ) : (decodeUnsigned bits).Calm := by
  intro o d raw stack _
  cases o with
  | integer s =>
      simp only [decodeUnsigned]
      split <;> simp [Error.ofKind]
  | list start => simp [decodeUnsigned, Error.ofKind]
  | dict start => simp [decodeUnsigned, Error.ofKind]
  | bytes s => simp [decodeUnsigned, Error.ofKind]

/-! ## Lists -/

section Lists

variable {item : Decode T}

/-- A list loop that succeeds has read the list to its end. -/
theorem listLoopN_whole (hitem : item.Whole) {k : ℕ} :
    ∀ {results a : List T} {d d' : Decoder}, listLoopN item k results d = .ok (a, d') →
      d.offset ≤ d.source.length →
      ∀ start l, d.remaining < l → dropObjectN l (.list start) d = .ok d' := by
  induction k with
  | zero => intro results a d d' h; cases h
  | succ k ih =>
      intro results a d d' h hd start l hl
      obtain ⟨l, rfl⟩ : ∃ l', l = l' + 1 := ⟨l - 1, by omega⟩
      rw [listLoopN] at h
      rw [dropObjectN]
      split at h
      · cases h
      · obtain ⟨-, rfl⟩ := Prod.mk.inj (Except.ok.inj h)
        rfl
      · next o d₁ hobj =>
          split at h
          · cases h
          · next b d₂ hval =>
              have h₁ := Decoder.nextObject_reads hobj
              have h₂ := h₁.trans (hitem.forward hval h₁.offset_le)
              have hlt₁ := h₁.remaining_lt
              have hlt₂ := h₂.remaining_lt
              -- the bounds of the item and of the rest of the list are large enough
              have hdrop : dropObjectN l o d₁ = .ok d₂ := by
                rw [(dropObjectN_reads o d₁ (by omega) h₁.offset_le).1 _ (Nat.lt_succ_self _)]
                exact hitem hval h₁.offset_le
              simp only [hdrop, Except.bind]
              exact ih h h₂.offset_le start l (by omega)

/-- A list is read to its end if every element is. -/
theorem decodeVec_whole (hitem : item.Whole) : (decodeVec item).Whole := by
  intro o d a d' h hd
  cases o with
  | list start => exact listLoopN_whole hitem h hd start _ (Nat.lt_succ_self _)
  | dict start => cases h
  | integer s => cases h
  | bytes s => cases h

/-- A list loop on an open list does not panic when its items do not. -/
theorem listLoopN_calm (hitem : item.Whole) (hcalm : item.Calm) {k : ℕ} {stack : List State} :
    ∀ {results : List T} {d : Decoder}, d.state = .seq :: stack →
      ¬ Panics (listLoopN item k results d) := by
  induction k with
  | zero => intro results d _; exact panics_ofStructure _
  | succ k ih =>
      intro results d hd
      rw [listLoopN]
      split
      · next e hobj => exact not_panics_of_eq_error (Decoder.nextObject_calm _) hobj
      · exact not_panics_ok _
      · next o d₁ hobj =>
          obtain ⟨raw, -, hopened⟩ := Decoder.nextObject_item hd hobj
          have hvalue := hcalm hopened
          split
          · next e hval => exact not_panics_of_eq_error hvalue hval
          · next b d₂ hval =>
              have h₁ := Decoder.nextObject_reads hobj
              exact ih (hitem.state hopened hval h₁.offset_le)

/-- Loops over items that are decoded alike up to a size are alike up to that size. -/
theorem listLoopN_congr {item' : Decode T} (hitem : item.Whole) {m : ℕ}
    (h : ∀ o d, d.remaining < m → d.offset ≤ d.source.length → item o d = item' o d) {k : ℕ} :
    ∀ (results : List T) (d : Decoder), d.remaining ≤ m →
      listLoopN item k results d = listLoopN item' k results d := by
  induction k with
  | zero => intro results d _; rfl
  | succ k ih =>
      intro results d hm
      rw [listLoopN, listLoopN]
      split
      · rfl
      · rfl
      · next o d₁ hobj =>
          have h₁ := Decoder.nextObject_reads hobj
          have hlt₁ := h₁.remaining_lt
          rw [← h o d₁ (by omega) h₁.offset_le]
          split
          · rfl
          · next a d₂ hval =>
              have hlt₂ := (h₁.trans (hitem.forward hval h₁.offset_le)).remaining_lt
              exact ih _ d₂ (by omega)

/-- A list is read without a panic if its elements are. -/
theorem decodeVec_calm (hitem : item.Whole) (hcalm : item.Calm) : (decodeVec item).Calm := by
  intro o d raw stack hopened
  cases o with
  | list start => exact listLoopN_calm hitem hcalm hopened.2.2
  | dict start => simp [decodeVec, Error.ofKind]
  | integer s => simp [decodeVec, Error.ofKind]
  | bytes s => simp [decodeVec, Error.ofKind]

end Lists

/-! ## Dictionaries -/

section Dictionaries

variable {body : σ → Bytes → Decode σ}

/-- A dictionary loop that succeeds has read the dictionary to its end. -/
theorem dictLoopN_whole (hbody : ∀ s key, (body s key).Whole) {k : ℕ} :
    ∀ {s s' : σ} {d d' : Decoder}, dictLoopN body k s d = .ok (s', d') →
      d.offset ≤ d.source.length →
      ∀ start l, d.remaining < l → dropObjectN l (.dict start) d = .ok d' := by
  induction k with
  | zero => intro s s' d d' h; cases h
  | succ k ih =>
      intro s s' d d' h hd start l hl
      obtain ⟨l, rfl⟩ : ∃ l', l = l' + 1 := ⟨l - 1, by omega⟩
      obtain ⟨_ | ⟨key, o⟩, d₁, hpair, hx⟩ := dictLoopN_eq_ok h
      · obtain ⟨-, rfl⟩ := hx
        rw [dropObjectN, hpair]
      · obtain ⟨s₁, d₂, hval, hrest⟩ := hx
        have h₁ := Decoder.nextPair_reads hpair
        have h₂ := h₁.trans ((hbody s key).forward hval h₁.offset_le)
        have hlt₁ := h₁.remaining_lt
        have hlt₂ := h₂.remaining_lt
        have hdrop : dropObjectN l o d₁ = .ok d₂ := by
          rw [(dropObjectN_reads o d₁ (by omega) h₁.offset_le).1 _ (Nat.lt_succ_self _)]
          exact hbody s key hval h₁.offset_le
        rw [dropObjectN, hpair]
        show (dropObjectN l o d₁).bind _ = _
        rw [hdrop]
        exact ih hrest h₂.offset_le start l (by omega)

/-- A dictionary is read to its end if every value is. -/
theorem dictLoop_whole (hbody : ∀ s key, (body s key).Whole) (s : σ) :
    (dictLoop body s).Whole := by
  intro o d a d' h hd
  cases o with
  | dict start => exact dictLoopN_whole hbody h hd start _ (Nat.lt_succ_self _)
  | list start => cases h
  | integer b => cases h
  | bytes b => cases h

/-- A dictionary loop where a key is due does not panic when the decoders of the values do
not. -/
theorem dictLoopN_calm (hbody : ∀ s key, (body s key).Whole) (hcalm : ∀ s key, (body s key).Calm)
    {k : ℕ} {stack : List State} :
    ∀ {s : σ} {d : Decoder} {last : Option Bytes}, d.state = .mapKey last :: stack →
      ¬ Panics (dictLoopN body k s d) := by
  induction k with
  | zero => intro s d last _; exact panics_ofStructure _
  | succ k ih =>
      intro s d last hd
      have hpairs := Decoder.nextPair_calm ⟨last, stack, hd⟩
      rw [dictLoopN]
      split
      · next e hpair => exact not_panics_of_eq_error hpairs hpair
      · exact not_panics_ok _
      · next key o d₁ hpair =>
          obtain ⟨rawKey, raw, -, -, hopened⟩ := Decoder.nextPair_opened hd hpair
          have hvalue := hcalm s key hopened
          split
          · next e hval => exact not_panics_of_eq_error hvalue hval
          · next s₁ d₂ hval =>
              have h₁ := Decoder.nextPair_reads hpair
              exact ih ((hbody s key).state hopened hval h₁.offset_le)

/-- Loops over values that are decoded alike up to a size are alike up to that size. -/
theorem dictLoopN_congr {body' : σ → Bytes → Decode σ} (hbody : ∀ s key, (body s key).Whole)
    {m : ℕ} (h : ∀ s key o d, d.remaining < m → d.offset ≤ d.source.length →
      body s key o d = body' s key o d) {k : ℕ} :
    ∀ (s : σ) (d : Decoder), d.remaining ≤ m → dictLoopN body k s d = dictLoopN body' k s d := by
  induction k with
  | zero => intro s d _; rfl
  | succ k ih =>
      intro s d hm
      rw [dictLoopN, dictLoopN]
      split
      · rfl
      · rfl
      · next key o d₁ hpair =>
          have h₁ := Decoder.nextPair_reads hpair
          have hlt₁ := h₁.remaining_lt
          rw [← h s key o d₁ (by omega) h₁.offset_le]
          split
          · rfl
          · next s₁ d₂ hval =>
              have hlt₂ := (h₁.trans ((hbody s key).forward hval h₁.offset_le)).remaining_lt
              exact ih s₁ d₂ (by omega)

/-- A loop follows another one entry by entry, when its body follows the body of the other. -/
theorem dictLoopN_follows {υ : Type} {body' : υ → Bytes → Decode υ} {R : σ → υ → Prop}
    (hbody : ∀ {s u key o d s' d'}, R s u → d.offset ≤ d.source.length →
      body s key o d = .ok (s', d') → ∃ u', body' u key o d = .ok (u', d') ∧ R s' u') {k : ℕ} :
    ∀ {s s' : σ} {u : υ} {d d' : Decoder}, R s u → dictLoopN body k s d = .ok (s', d') →
      ∃ u', dictLoopN body' k u d = .ok (u', d') ∧ R s' u' := by
  induction k with
  | zero => intro s s' u d d' _ h; cases h
  | succ k ih =>
      intro s s' u d d' hR h
      obtain ⟨_ | ⟨key, o⟩, d₁, hpair, hx⟩ := dictLoopN_eq_ok h
      · obtain ⟨rfl, rfl⟩ := hx
        rw [dictLoopN, hpair]
        exact ⟨u, rfl, hR⟩
      · obtain ⟨s₁, d₂, hval, hrest⟩ := hx
        have h₁ := Decoder.nextPair_reads hpair
        obtain ⟨u₁, hval', hR₁⟩ := hbody hR h₁.offset_le hval
        rw [dictLoopN, hpair]
        simp only [hval']
        exact ih hR₁ hrest

/-- A dictionary is read without a panic if its values are. -/
theorem dictLoop_calm (hbody : ∀ s key, (body s key).Whole) (hcalm : ∀ s key, (body s key).Calm)
    (s : σ) : (dictLoop body s).Calm := by
  intro o d raw stack hopened
  cases o with
  | dict start => exact dictLoopN_calm hbody hcalm hopened.2.2
  | list start => simp [dictLoop, Error.ofKind]
  | integer b => simp [dictLoop, Error.ofKind]
  | bytes b => simp [dictLoop, Error.ofKind]

end Dictionaries

/-! ## Dropped values and fields -/

/-- `k` reads of an open list, or of a dictionary in which a key is due, do not panic. -/
def CalmDrop (k : ℕ) : Prop :=
  ∀ (d : Decoder) (stack : List State),
    (d.state = .seq :: stack → ∀ start, ¬ Panics (dropObjectN k (.list start) d)) ∧
    ∀ last, d.state = .mapKey last :: stack → ∀ start, ¬ Panics (dropObjectN k (.dict start) d)

/-- Skipping an opened object does not panic. -/
theorem CalmDrop.opened {k : ℕ} (h : CalmDrop k) {o : Object} {d : Decoder} {raw : Bytes}
    {stack : List State} (hopened : o.Opened raw stack d) : ¬ Panics (dropObjectN k o d) := by
  cases o with
  | list start => exact (h d stack).1 hopened.2.2 start
  | dict start => exact (h d stack).2 none hopened.2.2 start
  | integer s => cases k <;> exact not_panics_ok d
  | bytes s => cases k <;> exact not_panics_ok d

/-- Dropping an object does not panic. -/
theorem calmDrop (k : ℕ) : CalmDrop k := by
  induction k with
  | zero =>
      intro d stack
      exact ⟨fun _ _ => panics_ofStructure _, fun _ _ _ => panics_ofStructure _⟩
  | succ k ih =>
      intro d stack
      refine ⟨fun hd start => ?_, fun last hd start => ?_⟩
      · have hobject := d.nextObject_calm
        rw [dropObjectN]
        split
        · next e hobj => exact not_panics_of_eq_error (Decoder.nextObject_calm _) hobj
        · exact not_panics_ok _
        · next o d₁ hobj =>
            obtain ⟨raw, -, hopened⟩ := Decoder.nextObject_item hd hobj
            rw [panics_bind, not_or]
            refine ⟨ih.opened hopened, ?_⟩
            rintro ⟨d₂, hitem, hrest⟩
            obtain ⟨-, -, -, hstate⟩ := hopened.value (closed_of_dropObjectN hitem)
            exact (ih d₂ stack).1 hstate start hrest
      · have hpairs := Decoder.nextPair_calm ⟨last, stack, hd⟩
        rw [dropObjectN]
        split
        · next e hpair => exact not_panics_of_eq_error hpairs hpair
        · exact not_panics_ok _
        · next key o d₁ hpair =>
            obtain ⟨rawKey, raw, -, -, hopened⟩ := Decoder.nextPair_opened hd hpair
            rw [panics_bind, not_or]
            refine ⟨ih.opened hopened, ?_⟩
            rintro ⟨d₂, hvalue, hrest⟩
            obtain ⟨-, -, -, hstate⟩ := hopened.value (closed_of_dropObjectN hvalue)
            exact (ih d₂ stack).2 (some key) hstate start hrest

/-- An unknown field is skipped to its end. -/
theorem unknownField_whole (s : σ) : (unknownField s).Whole := by
  intro o d a d' h _
  obtain ⟨d₁, hdrop, he⟩ := Checked.map_eq_ok.mp h
  obtain ⟨-, rfl⟩ := Prod.mk.inj he
  exact hdrop

/-- Skipping an unknown field does not panic. -/
theorem unknownField_calm (s : σ) : (unknownField s).Calm := by
  intro o d raw stack hopened
  rw [unknownField, panics_map]
  exact (calmDrop _).opened hopened

/-- A decoder whose value is changed afterwards. -/
theorem Decode.Whole.map {S : Type} {decode : Decode T} (h : decode.Whole) (f : T → S) :
    Decode.Whole fun o d => (decode o d).map fun (a, d') => (f a, d') := by
  intro o d a d' hdec hd
  obtain ⟨⟨b, d₁⟩, hb, he⟩ := Checked.map_eq_ok.mp hdec
  obtain ⟨-, rfl⟩ := Prod.mk.inj he
  exact h hb hd

/-- A function on the decoded value does not panic. -/
theorem Decode.Calm.map {S : Type} {decode : Decode T} (h : decode.Calm) (f : T → S) :
    Decode.Calm fun o d => (decode o d).map fun (a, d') => (f a, d') := by
  intro o d raw stack hopened
  rw [panics_map]
  exact h hopened

/-- A field is read to its end if its value is. -/
theorem field_whole {name : String} {decode : Decode T} {set : T → σ} (h : decode.Whole) :
    (field name decode set).Whole := by
  intro o d a d' hdec hd
  obtain ⟨⟨b, d₁⟩, hctx, he⟩ := Checked.map_eq_ok.mp hdec
  obtain ⟨-, rfl⟩ := Prod.mk.inj he
  exact h (context_eq_ok hctx) hd

/-- A field is read without a panic if its value is. -/
theorem field_calm {name : String} {decode : Decode T} {set : T → σ} (h : decode.Calm) :
    (field name decode set).Calm := by
  intro o d raw stack hopened
  rw [field, panics_map, panics_context]
  exact h hopened

/-- Both branches of a decision read to the end. -/
theorem Decode.Whole.ite {p : Prop} [Decidable p] {decode decode' : Decode T}
    (h : decode.Whole) (h' : decode'.Whole) : Decode.Whole (if p then decode else decode') := by
  split
  · exact h
  · exact h'

/-- Neither branch of a decision panics. -/
theorem Decode.Calm.ite {p : Prop} [Decidable p] {decode decode' : Decode T}
    (h : decode.Calm) (h' : decode'.Calm) : Decode.Calm (if p then decode else decode') := by
  split
  · exact h
  · exact h'

/-! ## Results with a property -/

/-- What the decoder makes of a value has a property. -/
def Decode.Gives (post : T → Prop) (decode : Decode T) : Prop :=
  ∀ ⦃o d a d'⦄, decode o d = .ok (a, d') → post a

section Gives

variable {post : σ → Prop}

theorem Decode.gives_map {decode : Decode T} {f : T → σ} (h : ∀ a, post (f a)) :
    Decode.Gives post fun o d => (decode o d).map fun (a, d') => (f a, d') := by
  intro o d a d' hdec
  obtain ⟨⟨b, d₁⟩, -, he⟩ := Checked.map_eq_ok.mp hdec
  obtain ⟨rfl, -⟩ := Prod.mk.inj he
  exact h b

theorem field_gives {name : String} {decode : Decode T} {set : T → σ} (h : ∀ a, post (set a)) :
    (field name decode set).Gives post := by
  intro o d a d' hdec
  obtain ⟨⟨b, d₁⟩, -, he⟩ := Checked.map_eq_ok.mp hdec
  obtain ⟨rfl, -⟩ := Prod.mk.inj he
  exact h b

theorem unknownField_gives {s : σ} (h : post s) : (unknownField s).Gives post := by
  intro o d a d' hdec
  obtain ⟨d₁, -, he⟩ := Checked.map_eq_ok.mp hdec
  obtain ⟨rfl, -⟩ := Prod.mk.inj he
  exact h

theorem Decode.Gives.ite {p : Prop} [Decidable p] {decode decode' : Decode σ}
    (h : p → decode.Gives post) (h' : ¬ p → decode'.Gives post) :
    Decode.Gives post (if p then decode else decode') := by
  split
  · next hp => exact h hp
  · next hp => exact h' hp

end Gives

/-! ## The entry point -/

/-- **No panic.**  A calm decoder does not panic on any input. -/
theorem fromBencode_calm {decode : Decode T} (h : decode.Calm) (mustOrder : Bool) (maxDepth : ℕ)
    (bytes : Bytes) : ¬ Panics (fromBencode decode mustOrder maxDepth bytes) := by
  unfold fromBencode
  split
  · next e hobj => exact not_panics_of_eq_error (Decoder.nextObject_calm _) hobj
  · exact panics_ofStructure _
  · next o d hobj =>
      obtain ⟨raw, stack, -, hopened, -⟩ := Decoder.nextObject_opened hobj
      rw [panics_map]
      exact h hopened

end Bendy
