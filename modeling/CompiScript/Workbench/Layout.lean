namespace CompiScript

inductive Setting where
  | text (value : String)
  | number (value : Nat)
  | yes

structure LayoutStep where
  what : String
  operands : List String
  settings : List (String × Setting)

namespace LayoutStep

def callback : String :=
  "<callback>"

def fillBoth : List (String × Setting) :=
  [("fill", .text "both"), ("expand", .yes)]

def padding : List (String × Setting) :=
  [("padx", .number 10), ("pady", .number 5)]

def beside : List (String × Setting) :=
  ("side", .text "left") :: padding

def button (name text : String) (more : List (String × Setting)) : List LayoutStep :=
  [⟨name, ["Frame2"], [("text", .text text), ("command", .text callback)] ++ more⟩,
    ⟨name ++ ".pack", [], beside⟩]

def panes : List LayoutStep :=
  [⟨"Tk1", [], []⟩,
    ⟨"PanedWindow1", ["Tk1"], [("orient", .text "horizontal")]⟩,
    ⟨"PanedWindow1.pack", [], fillBoth⟩,
    ⟨"Frame1", ["PanedWindow1"], []⟩,
    ⟨"PanedWindow1.add", ["Frame1"], [("width", .number 200)]⟩,
    ⟨"Treeview1", ["Frame1"], []⟩,
    ⟨"Treeview1.pack", [], fillBoth⟩,
    ⟨"Treeview1.bind", ["<<TreeviewOpen>>", callback], []⟩,
    ⟨"Treeview1.bind", ["<Double-1>", callback], []⟩,
    ⟨"PanedWindow2", ["PanedWindow1"], [("orient", .text "vertical")]⟩,
    ⟨"PanedWindow1.add", ["PanedWindow2"], []⟩]

def areas : List LayoutStep :=
  [⟨"ScrolledText1", ["PanedWindow2"], [("undo", .yes), ("wrap", .text "word")]⟩,
    ⟨"PanedWindow2.add", ["ScrolledText1"], [("stretch", .text "always")]⟩,
    ⟨"Frame2", ["PanedWindow2"], []⟩,
    ⟨"PanedWindow2.add", ["Frame2"], [("stretch", .text "never")]⟩,
    ⟨"Frame3", ["PanedWindow2"], []⟩,
    ⟨"PanedWindow2.add", ["Frame3"], [("stretch", .text "always")]⟩,
    ⟨"ScrolledText2", ["Frame3"],
      [("height", .number 10), ("state", .text "disabled"), ("wrap", .text "word"),
        ("bg", .text "black"), ("fg", .text "white")]⟩,
    ⟨"ScrolledText2.pack", [], fillBoth ++ padding⟩]

def controls : List LayoutStep :=
  ⟨"PhotoImage1", ["20x20"], []⟩
    :: button "Button1" "Compilar"
      [("image", .text "PhotoImage1"), ("compound", .text "right")]
    ++ button "Button2" "Debuguear" []
    ++ button "Button3" "Guardar" []

def menus : List LayoutStep :=
  [⟨"Menu1", ["Tk1"], []⟩,
    ⟨"Menu2", ["Menu1"], [("tearoff", .number 0)]⟩,
    ⟨"Menu1.add_cascade", [], [("label", .text "Archivo"), ("menu", .text "Menu2")]⟩,
    ⟨"Menu2.add_command", ["Abrir Archivo", callback], []⟩,
    ⟨"Menu2.add_command", ["Abrir Carpeta", callback], []⟩]

def window : List LayoutStep :=
  panes ++ areas ++ controls ++ menus

end LayoutStep

end CompiScript
