import ScriptLint.Proofs.Parser.Recovery

/-!
Comments that are reported. Almost everywhere a comment may stand where the next token does. But behind the key
of an entry it is reported, as a token that belongs nowhere.
-/

namespace ScriptLint

open Cursor

variable {source : String} {t u : Token}

namespace Token

/-- The token is one of the script or a piece of one. -/
def PieceOf (source : String) (u : Token) : Prop :=
  ∃ w ∈ tokenize source, u.kind = w.kind ∧ w.start ≤ u.start ∧ u.stop ≤ w.stop

theorem pieceOf_of_mem (h : t ∈ tokenize source) : t.PieceOf source :=
  ⟨t, h, rfl, Nat.le_refl _, Nat.le_refl _⟩

/-- Both pieces of a word that is cut are pieces of a token if the word is. -/
theorem PieceOf.cut (h : t.PieceOf source) (hword : t.kind = .word) {head tail : String}
    (htext : t.text = head ++ tail) :
    (t.cut head.utf8ByteSize).1.PieceOf source ∧ (t.cut head.utf8ByteSize).2.PieceOf source := by
  obtain ⟨w, hw, hkind, hstart, hstop⟩ := h
  have hsize : t.stop = t.start + head.utf8ByteSize + tail.utf8ByteSize := by
    rw [stop, htext, String.utf8ByteSize_append, Nat.add_assoc]
  have hkind : TokenKind.word = w.kind := hword.symm.trans hkind
  rw [cut_eq htext]
  refine ⟨⟨w, hw, hkind, hstart, ?_⟩, ⟨w, hw, hkind, Nat.le_add_right_of_le hstart, ?_⟩⟩
  · show t.start + head.utf8ByteSize ≤ w.stop
    omega
  · show t.start + head.utf8ByteSize + tail.utf8ByteSize ≤ w.stop
    omega

/-- A piece that stands where a token stands has its kind. -/
theorem PieceOf.kind_eq (h : u.PieceOf source) (hu : u.start < u.stop) (ht : t ∈ tokenize source)
    (hspan : u.span = t.span) : u.kind = t.kind := by
  obtain ⟨w, hw, hkind, hstart, hstop⟩ := h
  obtain ⟨hstart', hstop'⟩ := Span.mk.inj hspan
  have hsame : w = t := (tiles_tokenize source).eq_of_lt_stop hw ht (by omega) (by omega)
  exact hsame ▸ hkind

end Token

namespace Cursor

/-- Nothing is ahead but tokens of the script and pieces of them. -/
def Ahead (source : String) (c : Cursor) : Prop := ∀ u ∈ c.rest, u.PieceOf source

variable {c d : Cursor} {ts : List Token}

theorem Ahead.tail (hc : c.Ahead source) (hrest : c.rest = t :: ts) : ∀ u ∈ ts, u.PieceOf source :=
  fun u hu => hc u (hrest ▸ List.mem_cons_of_mem _ hu)

theorem Skips.ahead (h : Skips c d) (hc : c.Ahead source) : d.Ahead source := by
  induction h with
  | refl => exact hc
  | pass hrest _ ih => exact ih (hc.tail hrest)

end Cursor

theorem Reads.ahead {k : Level} {b d : Cursor} {ps : List Part} (h : Reads k b ps d)
    (hb : b.Ahead source) : d.Ahead source := by
  induction h with
  | nil | bodiless => exact hb
  | passing hpassing =>
      cases hpassing with
      | aside hrest | leave hrest | stray hrest => exact hb.tail hrest
      | cut hrest hword htext =>
          obtain ⟨hfirst, hsecond⟩ := (hb _ (hrest ▸ List.mem_cons_self)).cut hword htext
          exact List.forall_mem_cons.mpr ⟨hfirst, List.forall_mem_cons.mpr ⟨hsecond, hb.tail hrest⟩⟩
      | lacking => exact hb
  | append _ _ ih ih' => exact ih' (ih hb)
  | operand hrest | comment hrest | unclosed hrest => exact hb.tail hrest
  | joint _ _ ih => exact ih hb
  | group hrest _ _ _ hcloser ih => exact (ih (hb.tail hrest)).tail hcloser
  | cutOff hrest _ _ _ _ ih => exact ih (hb.tail hrest)
  | tooDeep hrest _ _ _ hskips => exact hskips.ahead (hb.tail hrest)

/-- What is in the group that a token opens is in a hashtable if the group is one. -/
theorem Cursor.Follows.table_of_inside {c : Cursor} {o : Token} {ts : List Token} (hc : c.Follows (tokenize source))
    (hrest : c.rest = o :: ts) (ho : o.kind.isOpener) (hle : (c.inside o ts).offset ≤ t.start)
    (h : some o.kind = some .atBrace ∨ ∃ o ∈ tokenize source, o.kind = .atBrace ∧ o.start < t.start) :
    c.offset ≤ t.start ∧ ∃ o ∈ tokenize source, o.kind = .atBrace ∧ o.start < t.start := by
  obtain ⟨hstart, hlt, hstop⟩ := hc.sound.bounds hrest
  rw [offset_inside, hstop] at hle
  refine ⟨by omega, ?_⟩
  rcases h with h | h
  · have hmem := List.mem_of_mem_filter (hc.mem_brackets hrest (TokenKind.isBracket_of_isOpener ho))
    exact ⟨o, hmem, Option.some.inj h, by omega⟩
  · exact h

/-- A comment that is reported on the way from `b` on a level is in a hashtable there, or in one further in. -/
theorem Reads.table_of_reported {k : Level} {b d : Cursor} {ps : List Part} (h : Reads k b ps d)
    (hb : b.Follows (tokenize source)) (hahead : b.Ahead source) (ht : t ∈ tokenize source)
    (hkind : t.kind = .comment) (hf : ⟨.unexpectedToken t.text, t.span⟩ ∈ d.faults) :
    ⟨.unexpectedToken t.text, t.span⟩ ∈ b.faults ∨ b.offset ≤ t.start ∧
      (k.around = some .atBrace ∨ ∃ o ∈ tokenize source, o.kind = .atBrace ∧ o.start < t.start) := by
  have hlt := (tiles_tokenize source).start_lt_stop ht
  -- where nothing is passed no comment is reported
  have hempty {at' : Nat} (hspan : t.span = .empty at') : False := by
    obtain ⟨hstart, hstop⟩ := Span.mk.inj hspan
    omega
  induction h with
  | nil | operand | comment => exact .inl hf
  | passing hpassing =>
      cases hpassing with
      | aside | leave | cut => exact .inl hf
      | @stray u ts hrest hstray =>
          rcases Array.mem_push.mp hf with hf | hf
          · exact .inl hf
          · have hspan : u.span = t.span := congrArg Fault.span hf.symm
            have hu := hb.sound.bounds hrest
            have hsame := (hahead u (hrest ▸ List.mem_cons_self)).kind_eq hu.2.1 ht hspan
            have hstart : u.start = t.start := congrArg Span.start hspan
            refine .inr ⟨by omega, .inl (hstray.in_table (.inr ?_))⟩
            rw [hsame, hkind]
            rfl
      | lacking =>
          rcases Array.mem_push.mp hf with hf | hf
          · exact .inl hf
          · exact (hempty (congrArg Fault.span hf)).elim
  | append h h' ih ih' =>
      rcases ih' (h.follows hb) (h.ahead hahead) hf with hf | ⟨hle, hin⟩
      · exact ih hb hahead hf
      · exact .inr ⟨Nat.le_trans (h.reaches hb.sound).offset_le hle, hin⟩
  | unclosed =>
      rcases Array.mem_push.mp hf with hf | hf
      · exact .inl hf
      · cases hf
  | bodiless =>
      rcases Array.mem_push.mp hf with hf | hf
      · exact .inl hf
      · exact (hempty (congrArg Fault.span hf)).elim
  | tooDeep _ _ _ _ hskips =>
      rcases Array.mem_push.mp hf with hf | hf
      · rw [hskips.faults_eq] at hf
        exact .inl hf
      · cases hf
  | joint _ _ ih => exact ih hb hahead hf
  | group hrest hn _ _ _ ih =>
      refine (ih (hb.inside hrest) (hahead.tail hrest) hf).imp_right fun ⟨hle, hin⟩ => ?_
      exact (hb.table_of_inside hrest hn.opened.isOpener hle hin).imp_right .inr
  | cutOff hrest hn _ _ _ ih =>
      rcases Array.mem_push.mp hf with hf | hf
      · refine (ih (hb.inside hrest) (hahead.tail hrest) hf).imp_right fun ⟨hle, hin⟩ => ?_
        exact (hb.table_of_inside hrest hn.opened.isOpener hle hin).imp_right .inr
      · cases hf

/-- A comment is reported only behind the opener of a hashtable. -/
theorem table_of_comment_reported {before behind : List Token} (h : tokenize source = before ++ t :: behind)
    (hkind : t.kind = .comment) (hf : ⟨.unexpectedToken t.text, t.span⟩ ∈ (parse source).faults) :
    ∃ o ∈ before, o.kind = .atBrace := by
  obtain ⟨body, d, hreads, -, hparse⟩ := exists_reads source
  rw [hparse] at hf
  have ht : t ∈ tokenize source := by simp [h]
  rcases hreads.table_of_reported (.ofSource source) (fun u hu => Token.pieceOf_of_mem hu) ht hkind
    (Array.mem_toList_iff.mp hf) with hf | ⟨-, hin⟩
  · exact absurd hf (Array.not_mem_empty _)
  obtain ⟨o, ho, hopener, hlt⟩ := hin.resolve_left nofun
  refine ⟨o, ?_, hopener⟩
  rw [h] at ho
  refine (List.mem_append.mp ho).resolve_right fun hmem => ?_
  have hpairwise := (tiles_tokenize source).pairwise_start
  rw [h] at hpairwise
  rcases List.mem_cons.mp hmem with rfl | hmem
  · exact Nat.lt_irrefl _ hlt
  · have hbehind := (List.pairwise_cons.mp (List.pairwise_append.mp hpairwise).2.1).1 o hmem
    omega

end ScriptLint
