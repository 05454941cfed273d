import Manchester.Compiler.Generate

namespace Manchester.Compiler

open Assembler (Arg parseArg intBase10 intBase16 digitValue decimalZeros)

theorem decimal_isDigit {n : Nat} {c : Char} (hc : c∈decimal n) : c.isDigit=true :=
  Nat.isDigit_of_mem_toDigits (by decide) (by decide) hc

theorem decimal_ne_nil (n : Nat) : decimal n ≠ [] := Nat.toDigits_ne_nil

/-- The number after the last `_tmp_`, where nothing but the number follows. -/
def stampAtEnd (x : Name) : Option Nat :=
  let number := x.reverse.takeWhile Char.isDigit
  if number ≠ [] ∧ "_pmt_".toList <+: x.reverse.dropWhile Char.isDigit then
    some (Nat.ofDigitChars 10 number.reverse 0)
  else none

/-- The number after a `_tmp_` that the name begins with. -/
def stampAtStart (x : Name) : Option Nat :=
  if "_tmp_".toList <+: x then some (Nat.ofDigitChars 10 ((x.drop 5).takeWhile Char.isDigit) 0)
  else none

/-- The number of the variable that a name was made with. -/
def stamp (x : Name) : Option Nat :=
  match stampAtEnd x with
  | some k => some k
  | none =>
    if "_true".toList <:+ x then stampAtEnd (x.take (x.length-5))
    else if "_false".toList <:+ x then stampAtEnd (x.take (x.length-6))
    else stampAtStart x

/-- The text of the temporary variable with number k. -/
def tmp (k : Nat) : Name := "_tmp_".toList++decimal k

theorem stampAtEnd_tmp (p : Name) (k : Nat) : stampAtEnd (p++tmp k)=some k := by
  have hreverse : (p++tmp k).reverse=(decimal k).reverse++("_pmt_".toList++p.reverse) := by
    simp [tmp]
  have hdigits : ∀ c∈(decimal k).reverse,c.isDigit=true := fun c hc =>
    decimal_isDigit (List.mem_reverse.mp hc)
  have htake : ((decimal k).reverse++("_pmt_".toList++p.reverse)).takeWhile Char.isDigit=
      (decimal k).reverse := by
    rw [List.takeWhile_append_of_pos hdigits]
    simp
  have hdrop : ((decimal k).reverse++("_pmt_".toList++p.reverse)).dropWhile Char.isDigit=
      "_pmt_".toList++p.reverse := by
    rw [List.dropWhile_append_of_pos hdigits]
    simp
  unfold stampAtEnd
  rw [hreverse,htake,hdrop,if_pos,List.reverse_reverse]
  · exact congrArg some Nat.ofDigitChars_ten_toDigits
  · exact ⟨by simpa using decimal_ne_nil k,List.prefix_append _ _⟩

/-- A name that ends in a letter has no number at its end. -/
theorem stampAtEnd_letter (p : Name) {c : Char} (hc : c.isDigit=false) :
    stampAtEnd (p++[c])=none := by
  unfold stampAtEnd
  rw [if_neg]
  simp [hc]

theorem stamp_tmp (p : Name) (k : Nat) : stamp (p++tmp k)=some k := by
  rw [stamp,stampAtEnd_tmp]

theorem stamp_true (p : Name) (k : Nat) : stamp (p++tmp k++"_true".toList)=some k := by
  have hend : p++tmp k++"_true".toList=(p++tmp k++"_tru".toList)++['e'] := by simp
  have hnone : stampAtEnd (p++tmp k++"_true".toList)=none := by
    rw [hend]
    exact stampAtEnd_letter _ (by decide)
  have hlen : (p++tmp k++"_true".toList).length-5=(p++tmp k).length := by
    simp only [List.length_append]
    exact Nat.add_sub_cancel _ 5
  rw [stamp,hnone,if_pos (List.suffix_append _ _),hlen,List.take_left]
  exact stampAtEnd_tmp p k

theorem stamp_false (p : Name) (k : Nat) : stamp (p++tmp k++"_false".toList)=some k := by
  have hend : p++tmp k++"_false".toList=(p++tmp k++"_fals".toList)++['e'] := by simp
  have hnone : stampAtEnd (p++tmp k++"_false".toList)=none := by
    rw [hend]
    exact stampAtEnd_letter _ (by decide)
  have htrue : ¬"_true".toList <:+ p++tmp k++"_false".toList := by
    rw [← List.reverse_prefix]
    simp
  have hlen : (p++tmp k++"_false".toList).length-6=(p++tmp k).length := by
    simp only [List.length_append]
    exact Nat.add_sub_cancel _ 6
  rw [stamp,hnone,if_neg htrue,if_pos (List.suffix_append _ _),hlen,List.take_left]
  exact stampAtEnd_tmp p k

/-- A name with the number in front, whose end is no other number and no branch. -/
theorem stamp_start {k : Nat} {q : Name} (hend : stampAtEnd (tmp k++ '_'::q)=none)
    (htrue : ¬"_true".toList <:+ tmp k++ '_'::q) (hfalse : ¬"_false".toList <:+ tmp k++ '_'::q) :
    stamp (tmp k++ '_'::q)=some k := by
  have hdigits : ∀ c∈decimal k,c.isDigit=true := fun c hc => decimal_isDigit hc
  have hdrop : (tmp k++ '_'::q).drop 5=decimal k++ '_'::q := by simp [tmp]
  have htake : (decimal k++ '_'::q).takeWhile Char.isDigit=decimal k := by
    rw [List.takeWhile_append_of_pos hdigits]
    simp
  have hprefix : "_tmp_".toList <+: tmp k++ '_'::q := by
    rw [tmp,List.append_assoc]
    exact List.prefix_append _ _
  rw [stamp,hend,if_neg htrue,if_neg hfalse,stampAtStart,if_pos hprefix,hdrop,htake]
  exact congrArg some Nat.ofDigitChars_ten_toDigits

/-- The name of the literal 1 that a conditional starts its guards from. -/
theorem stamp_one (k : Nat) : stamp (tmp k++"_1".toList)=some k := by
  have hne : decimal k ≠ [] := decimal_ne_nil k
  have hlast : ∃ (ds : List Char) (d : Char),decimal k=ds++[d] ∧ d.isDigit=true := by
    refine ⟨(decimal k).dropLast,(decimal k).getLast hne,
      (List.dropLast_append_getLast hne).symm,?_⟩
    exact decimal_isDigit (List.getLast_mem hne)
  obtain ⟨ds,d,hd,hdigit⟩ := hlast
  have hp : d ≠ 'p' := by
    rintro rfl
    cases hdigit
  apply stamp_start (q := ['1'])
  · unfold stampAtEnd
    rw [if_neg]
    simp [tmp,hd,hp.symm]
  · rw [← List.reverse_prefix]
    simp
  · rw [← List.reverse_prefix]
    simp

/-- A name that the assembler takes for a variable. -/
structure IsVariable (x : Name) : Prop where
  cname : isCName x=true
  letter : 't'∈x
  underscore : '_'∈x

theorem CName.chars (v : CName) : v.val.all isCNameChar=true := by
  obtain ⟨name,h⟩ := v
  cases name with
  | nil => rfl
  | cons c cs =>
    simp only [isCName,Bool.and_eq_true,Bool.or_eq_true,beq_iff_eq] at h
    simp only [List.all_cons,Bool.and_eq_true]
    refine ⟨?_,h.2⟩
    simp only [isCNameChar,Char.isAlphanum,Bool.or_eq_true,beq_iff_eq]
    exact h.1.imp_right Or.inl

theorem decimal_chars (k : Nat) : (decimal k).all isCNameChar=true := by
  rw [List.all_eq_true]
  intro c hc
  simp [isCNameChar,Char.isAlphanum,decimal_isDigit hc]

theorem isVariable_tmp {p q : Name} (k : Nat) (hp : p=[] ∨ isCName p=true)
    (hq : q.all isCNameChar=true) : IsVariable (p++tmp k++q) := by
  have htmp : (tmp k).all isCNameChar=true := by
    rw [tmp,List.all_append,decimal_chars,Bool.and_true]
    decide
  refine ⟨?_,by simp [tmp],by simp [tmp]⟩
  cases p with
  | nil =>
    have hcons : [] ++ tmp k++q= '_'::("tmp_".toList++decimal k++q) := by simp [tmp]
    have hrest : ("tmp_".toList++decimal k++q).all isCNameChar=true := by
      rw [List.all_append,List.all_append,decimal_chars,hq]
      decide
    rw [hcons,isCName,hrest]
    rfl
  | cons c cs =>
    have h : isCName (c::cs)=true := hp.resolve_left (by simp)
    simp only [isCName,Bool.and_eq_true] at h
    rw [List.cons_append,List.cons_append,isCName,List.all_append,List.all_append,h.1,h.2,htmp,hq]
    rfl

/-- The prefixes of names: nothing, a variable, or an underscore with a variable and more. -/
theorem isVariable_end {p : Name} (k : Nat) (hp : p=[] ∨ isCName p=true) :
    IsVariable (p++tmp k) := by
  have hvariable : IsVariable (p++tmp k++[]) := isVariable_tmp k hp rfl
  rwa [List.append_nil] at hvariable

theorem isCName_underscore (v : CName) {q : Name} (hq : q.all isCNameChar=true) :
    isCName ('_'::v.val++q)=true := by
  rw [List.cons_append,isCName,List.all_append,v.chars,hq]
  rfl

end Manchester.Compiler
