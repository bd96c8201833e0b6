/-!
# The prelude

The definitions in the language itself that every session begins with.
-/

namespace SmallLisp

/-- The definitions that every session evaluates, in order: negation, running a file, selection
among clauses, fresh symbols, and the first true form. -/
def prelude : List String :=
  [r#"(define not (lambda (a) (if a false true)))"#,
    r#"(define load-file
         (lambda (f) (eval (read-string (str "(do " (slurp f) "\nnil)")))))"#,
    r#"(defmacro! cond
         (lambda (& xs)
           (if (> (count xs) 0)
             (list 'if (first xs)
                   (if (> (count xs) 1)
                     (nth xs 1)
                     (throw "odd number of forms to cond"))
                   (cons 'cond (rest (rest xs)))))))"#,
    r#"(define *gensym-counter* (atom 0))"#,
    r#"(define gensym
         (lambda () (symbol (str "G__" (swap! *gensym-counter* (lambda (x) (+ 1 x)))))))"#,
    r#"(defmacro! or
         (lambda (& xs)
           (if (empty? xs)
             nil
             (if (= 1 (count xs))
               (first xs)
               (let* (condvar (gensym))
                 `(let* (~condvar ~(first xs))
                    (if ~condvar ~condvar (or ~@(rest xs)))))))))"#]

end SmallLisp
