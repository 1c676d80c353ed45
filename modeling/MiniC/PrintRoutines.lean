/-!
# The print routines

Compiled programs print by calling routines of their own, one for each type. They are written in C
and linked with the program.
-/

set_option autoImplicit false

namespace MiniC

/-- The lines of the source file of the print routines. -/
def printRoutineLines : List String :=
  [ "/* Print routines called by code generated with xcc. Link with: cc prog.s runtime.c */",
    "#include <stdio.h>",
    "",
    "void printint(int x) \x7b printf(\"%d\\n\", x); \x7d",
    "",
    "void printlong(long x) \x7b printf(\"%ld\\n\", x); \x7d",
    "",
    "void printchar(char c) \x7b printf(\"%c\\n\", c); \x7d",
    "",
    "void printfloat(double x) \x7b printf(\"%f\\n\", x); \x7d",
    "",
    "void printstring(const char *s) \x7b printf(\"%s\\n\", s); \x7d",
    "",
    "void printarray(const int *values, long length) \x7b",
    "    for (long i = 0; i < length; i++) \x7b",
    "        printf(i ? \" %d\" : \"%d\", values[i]);",
    "    \x7d",
    "    printf(\"\\n\");",
    "\x7d",
    "",
    "void printfloatarray(const double *values, long length) \x7b",
    "    for (long i = 0; i < length; i++) \x7b",
    "        printf(i ? \" %f\" : \"%f\", values[i]);",
    "    \x7d",
    "    printf(\"\\n\");",
    "\x7d" ]

/-- The source file of the print routines. -/
def printRoutines : String := String.join (printRoutineLines.map (· ++ "\n"))

end MiniC
